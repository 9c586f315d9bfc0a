import Mathlib

/-! Runs of a system that takes one event after the other, what holds in every state of a run, and
what every step of a run meets. -/

namespace Psp2Shell.CLib

variable {σ ε : Type}

/-- The state after the events `es`, and `none` when one of them cannot happen. -/
def run (step : σ → ε → Option σ) : σ → List ε → Option σ
  | s, [] => some s
  | s, e :: es =>
    match step s e with
    | none => none
    | some t => run step t es

/-- Every state that the events reach from `s` is good. -/
def Always (step : σ → ε → Option σ) (good : σ → Prop) (s : σ) (es : List ε) : Prop :=
  ∀ before, before <+: es → ∀ t, run step s before = some t → good t

/-- Every step that the events take from `s` meets the condition. -/
def EachStep (step : σ → ε → Option σ) (cond : σ → ε → Prop) (s : σ) (es : List ε) : Prop :=
  ∀ before e, before ++ [e] <+: es → ∀ t, run step s before = some t → cond t e

variable {step : σ → ε → Option σ} {good inv : σ → Prop} {cond : σ → ε → Prop}

theorem run_cons {s t : σ} {e : ε} (h : step s e = some t) (es : List ε) :
    run step s (e :: es) = run step t es := by
  rw [run, h]

/-- What has changed in a run has changed in one of its steps. -/
theorem exists_step_of_ne {β : Type} (f : σ → β) {s t : σ} {es : List ε}
    (hrun : run step s es = some t) (hne : f t ≠ f s) :
    ∃ before e u v, before ++ [e] <+: es ∧ run step s before = some u ∧
      step u e = some v ∧ f v ≠ f u := by
  induction es generalizing s with
  | nil =>
    cases hrun
    exact absurd rfl hne
  | cons e es ih =>
    cases hstep : step s e with
    | none => simp [run, hstep] at hrun
    | some u =>
      by_cases hsame : f u = f s
      · rw [run_cons hstep] at hrun
        rw [← hsame] at hne
        obtain ⟨before, e', v, w, hprefix, hbefore, hchange⟩ := ih hrun hne
        refine ⟨e :: before, e', v, w, ?_, (run_cons hstep before).trans hbefore, hchange⟩
        exact List.cons_prefix_cons.mpr ⟨rfl, hprefix⟩
      · exact ⟨[], e, s, u, by simp, rfl, hstep, hsame⟩

theorem always_cons {s t : σ} {e : ε} (h : step s e = some t) (es : List ε) :
    Always step good s (e :: es) ↔ good s ∧ Always step good t es := by
  constructor
  · refine fun ha => ⟨ha [] List.nil_prefix s rfl, fun before hbefore u hu => ?_⟩
    exact ha (e :: before) (List.cons_prefix_cons.mpr ⟨rfl, hbefore⟩) u
      ((run_cons h before).trans hu)
  · rintro ⟨hs, ha⟩ before hbefore u hu
    cases before with
    | nil =>
      cases hu
      exact hs
    | cons e' before =>
      obtain ⟨rfl, htail⟩ := List.cons_prefix_cons.mp hbefore
      rw [run_cons h] at hu
      exact ha before htail u hu

theorem eachStep_cons {s t : σ} {e : ε} (h : step s e = some t) (es : List ε) :
    EachStep step cond s (e :: es) ↔ cond s e ∧ EachStep step cond t es := by
  constructor
  · refine fun hc => ⟨hc [] e (by simp) s rfl, fun before e' hbefore u hu => ?_⟩
    exact hc (e :: before) e' (List.cons_prefix_cons.mpr ⟨rfl, hbefore⟩) u
      ((run_cons h before).trans hu)
  · rintro ⟨hs, hc⟩ before e' hbefore u hu
    cases before with
    | nil =>
      obtain ⟨rfl, -⟩ := List.cons_prefix_cons.mp hbefore
      cases hu
      exact hs
    | cons e'' before =>
      obtain ⟨rfl, htail⟩ := List.cons_prefix_cons.mp hbefore
      rw [run_cons h] at hu
      exact hc before e' htail u hu

theorem eachStep_nil {s : σ} : EachStep step cond s [] := by
  rintro before e ⟨after, hafter⟩
  simp at hafter

theorem eachStep_stuck {s : σ} {e : ε} (h : step s e = none) (es : List ε) :
    EachStep step cond s (e :: es) ↔ cond s e := by
  constructor
  · exact fun hc => hc [] e (by simp) s rfl
  · intro hs before e' hbefore u hu
    cases before with
    | nil =>
      obtain ⟨rfl, -⟩ := List.cons_prefix_cons.mp hbefore
      cases hu
      exact hs
    | cons e'' before =>
      obtain ⟨rfl, -⟩ := List.cons_prefix_cons.mp hbefore
      simp [run, h] at hu

theorem eachStep_singleton {s : σ} {e : ε} : EachStep step cond s [e] ↔ cond s e := by
  cases h : step s e with
  | none => exact eachStep_stuck h []
  | some t => rw [eachStep_cons h, and_iff_left eachStep_nil]

/-- A condition that can be decided in each step can be decided along a run. -/
instance decidableEachStep (step : σ → ε → Option σ) (cond : σ → ε → Prop)
    [∀ s e, Decidable (cond s e)] : ∀ s es, Decidable (EachStep step cond s es)
  | _, [] => isTrue eachStep_nil
  | s, e :: es =>
    match h : step s e with
    | none => decidable_of_iff (cond s e) (eachStep_stuck h es).symm
    | some t =>
      have := decidableEachStep step cond t es
      decidable_of_iff (cond s e ∧ EachStep step cond t es) (eachStep_cons h es).symm

/-- An invariant that every step under the condition keeps, and that makes a state good. -/
structure Guards (step : σ → ε → Option σ) (inv good : σ → Prop) (cond : σ → ε → Prop) : Prop where
  keep : ∀ {s e t}, inv s → cond s e → step s e = some t → inv t
  good : ∀ {s}, inv s → good s

namespace Guards

/-- A run whose steps all meet the condition keeps the invariant. -/
theorem invariant (h : Guards step inv good cond) {s t : σ} {es : List ε} (hs : inv s)
    (hrun : run step s es = some t) (hc : EachStep step cond s es) : inv t := by
  induction es generalizing s with
  | nil =>
    cases hrun
    exact hs
  | cons e es ih =>
    cases hstep : step s e with
    | none => simp [run, hstep] at hrun
    | some u =>
      rw [run_cons hstep] at hrun
      rw [eachStep_cons hstep] at hc
      exact ih (h.keep hs hc.1 hstep) hrun hc.2

theorem always (h : Guards step inv good cond) {s : σ} {es : List ε} (hs : inv s)
    (hc : EachStep step cond s es) : Always step good s es := by
  rintro before ⟨after, rfl⟩ t ht
  refine h.good (h.invariant hs ht fun pre e hpre u hu => ?_)
  exact hc pre e (hpre.trans (List.prefix_append before after)) u hu

/-- When a step that misses the condition leaves a state that is not good, the runs whose states are
all good are those whose steps all meet the condition. -/
theorem always_iff (h : Guards step inv good cond)
    (miss : ∀ {s e t}, inv s → ¬cond s e → step s e = some t → ¬good t) {s t : σ} {es : List ε}
    (hs : inv s) (hrun : run step s es = some t) :
    Always step good s es ↔ EachStep step cond s es := by
  refine ⟨fun ha => ?_, h.always hs⟩
  induction es generalizing s with
  | nil => exact eachStep_nil
  | cons e es ih =>
    cases hstep : step s e with
    | none => simp [run, hstep] at hrun
    | some u =>
      rw [run_cons hstep] at hrun
      rw [always_cons hstep] at ha
      rw [eachStep_cons hstep]
      have hcond : cond s e := by
        by_contra hno
        exact miss hs hno hstep (ha.2 [] List.nil_prefix u rfl)
      exact ⟨hcond, ih (h.keep hs hcond hstep) hrun ha.2⟩

end Guards

end Psp2Shell.CLib
