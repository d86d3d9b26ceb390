import Mathlib.Data.List.Forall2
import Mathlib.Data.Option.Basic
import Orthtree.Fault

/-!
# Two queries at a time

`AnswersAlike R` compares what two queries answer: either both do, with answers that `R` relates, or both are refused
with the same fault.  Queries that are put together in the same way of queries that answer alike answer alike
themselves; so two runs of one program are compared line by line, without saying what each line answers.
-/

namespace Orthtree

variable {α β γ δ ε : Type} {R : α → β → Prop} {S : γ → δ → Prop}

/-- Both queries answer, and their answers are related. -/
def BothAnswer (R : α → β → Prop) (x : Except Fault α) (y : Except Fault β) : Prop :=
  ∃ a b, x = .ok a ∧ y = .ok b ∧ R a b

/-- Both queries answer, with related answers, or both are refused with the same fault. -/
inductive AnswersAlike (R : α → β → Prop) : Except Fault α → Except Fault β → Prop
  | ok {a : α} {b : β} : R a b → AnswersAlike R (.ok a) (.ok b)
  | error (e : Fault) : AnswersAlike R (.error e) (.error e)

/-- Queries that are both answered, with related answers, are alike. -/
theorem BothAnswer.alike {x : Except Fault α} {y : Except Fault β} (h : BothAnswer R x y) :
    AnswersAlike R x y := by
  obtain ⟨a, b, rfl, rfl, hab⟩ := h
  exact .ok hab

namespace AnswersAlike

variable {x : Except Fault α} {y : Except Fault β}

/-- Of two queries that are alike, the second is answered if the first is. -/
theorem bothAnswer (h : AnswersAlike R x y) {a : α} (hx : x = .ok a) : BothAnswer R x y := by
  cases h with
  | ok hab => exact ⟨_, _, rfl, rfl, hab⟩
  | error e => cases hx

/-- Two queries that go on after queries that answer alike. -/
theorem bind {f : α → Except Fault γ} {g : β → Except Fault δ} (h : AnswersAlike R x y)
    (hnext : ∀ a b, R a b → AnswersAlike S (f a) (g b)) : AnswersAlike S (x >>= f) (y >>= g) := by
  cases h with
  | ok hab => exact hnext _ _ hab
  | error e => exact .error e

/-- Two queries that go on after the same query. -/
theorem bind_same (x : Except Fault α) {f : α → Except Fault γ} {g : α → Except Fault δ}
    (hnext : ∀ a, AnswersAlike S (f a) (g a)) : AnswersAlike S (x >>= f) (x >>= g) := by
  cases x with
  | ok a => exact hnext a
  | error e => exact .error e

/-! ## Queries of lists -/

/-- The same list, looked at by two queries. -/
theorem mapM {f : ε → Except Fault γ} {g : ε → Except Fault δ}
    (hquery : ∀ z, AnswersAlike S (f z) (g z)) (zs : List ε) :
    AnswersAlike (List.Forall₂ S) (zs.mapM f) (zs.mapM g) := by
  induction zs with
  | nil => exact .ok .nil
  | cons z zs ih =>
      rw [List.mapM_cons, List.mapM_cons]
      apply (hquery z).bind
      intro c d hcd
      apply ih.bind
      intro cs ds hcds
      exact .ok (.cons hcd hcds)

/-- Two passes over the same list keep what they have gathered related. -/
theorem foldlM {step : α → ε → Except Fault α} {step' : β → ε → Except Fault β}
    (hstep : ∀ a b, R a b → ∀ z, AnswersAlike R (step a z) (step' b z)) (zs : List ε) {a : α}
    {b : β} (h : R a b) : AnswersAlike R (zs.foldlM step a) (zs.foldlM step' b) := by
  induction zs generalizing a b with
  | nil => exact .ok h
  | cons z zs ih =>
      rw [List.foldlM_cons, List.foldlM_cons]
      apply (hstep a b h z).bind
      intro a' b' h'
      exact ih h'

end AnswersAlike

/-- Tests that agree on related items agree on related lists. -/
theorem allM_eq_allM {test : α → Except Fault Bool} {test' : β → Except Fault Bool} {xs : List α}
    {ys : List β} (h : List.Forall₂ R xs ys) (htest : ∀ a b, R a b → test a = test' b) :
    xs.allM test = ys.allM test' := by
  induction h with
  | nil => rfl
  | cons hab _ ih => rw [List.allM, List.allM, htest _ _ hab, ih]

/-! ## Lists up to order -/

/-- The members of the two lists are related to each other, whatever their order. -/
def SameMembers (R : α → β → Prop) (xs : List α) (ys : List β) : Prop :=
  (∀ x ∈ xs, ∃ y ∈ ys, R x y) ∧ ∀ y ∈ ys, ∃ x ∈ xs, R x y

/-- Lists that are related entry by entry have related members. -/
theorem SameMembers.of_forall₂ {xs : List α} {ys : List β} (h : List.Forall₂ R xs ys) :
    SameMembers R xs ys := by
  induction h with
  | nil => exact ⟨fun x hx => absurd hx List.not_mem_nil, fun y hy => absurd hy List.not_mem_nil⟩
  | @cons x y xs ys hxy _ ih =>
      constructor
      · intro z hz
        rcases List.mem_cons.1 hz with rfl | hz
        · exact ⟨y, List.mem_cons_self, hxy⟩
        · obtain ⟨w, hw, hzw⟩ := ih.1 z hz
          exact ⟨w, List.mem_cons_of_mem y hw, hzw⟩
      · intro w hw
        rcases List.mem_cons.1 hw with rfl | hw
        · exact ⟨x, List.mem_cons_self, hxy⟩
        · obtain ⟨z, hz, hzw⟩ := ih.2 w hw
          exact ⟨z, List.mem_cons_of_mem x hz, hzw⟩

end Orthtree
