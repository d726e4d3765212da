import Alphabox.Lib.Numerals
import Mathlib.Logic.Relation

/-!
# Runs of a state machine

`Reach init ok step s`: `s` is reached from a state of `init` by operations, each taken where
`ok` allows it. An invariant that holds initially and that every allowed operation keeps holds
of every reachable state (`Reach.inv`).
-/

namespace Lib

variable {σ α : Type*}

/-- The states reached from `init` by operations allowed where they are taken. -/
inductive Reach (init : σ → Prop) (ok : σ → α → Prop) (step : σ → α → σ) : σ → Prop
  | start {s : σ} : init s → Reach init ok step s
  | next {s : σ} {a : α} : Reach init ok step s → ok s a → Reach init ok step (step s a)

/-- Operations each allowed where it is taken. -/
def Allowed (ok : σ → α → Prop) (step : σ → α → σ) : σ → List α → Prop
  | _, [] => True
  | s, a :: l => ok s a ∧ Allowed ok step (step s a) l

theorem Allowed.mono {ok ok' : σ → α → Prop} {step : σ → α → σ} (h : ∀ s a, ok s a → ok' s a)
    {s : σ} {l : List α} (hl : Allowed ok step s l) : Allowed ok' step s l := by
  induction l generalizing s with
  | nil => exact hl
  | cons a l ih => exact ⟨h _ _ hl.1, ih hl.2⟩

theorem Allowed.append {ok : σ → α → Prop} {step : σ → α → σ} {s : σ} {l m : List α}
    (hl : Allowed ok step s l) (hm : Allowed ok step (l.foldl step s) m) :
    Allowed ok step s (l ++ m) := by
  induction l generalizing s with
  | nil => exact hm
  | cons a l ih => exact ⟨hl.1, ih hl.2 hm⟩

instance decidableAllowed (ok : σ → α → Prop) [∀ s a, Decidable (ok s a)] (step : σ → α → σ)
    (s : σ) (l : List α) : Decidable (Allowed ok step s l) :=
  match l with
  | [] => .isTrue trivial
  | a :: l =>
    have := decidableAllowed ok step (step s a) l
    inferInstanceAs (Decidable (ok s a ∧ Allowed ok step (step s a) l))

namespace Reach

variable {init : σ → Prop} {ok : σ → α → Prop} {step : σ → α → σ}

theorem inv {P : σ → Prop} (h0 : ∀ s, init s → P s) (hs : ∀ s a, P s → ok s a → P (step s a))
    {s : σ} (h : Reach init ok step s) : P s := by
  induction h with
  | start hi => exact h0 _ hi
  | next _ ha ih => exact hs _ _ ih ha

/-- A list of operations that are allowed anywhere. -/
theorem foldl {s : σ} (h : Reach init ok step s) (l : List α) (hl : ∀ a ∈ l, ∀ s, ok s a) :
    Reach init ok step (l.foldl step s) := by
  induction l generalizing s with
  | nil => exact h
  | cons a l ih =>
    exact ih (h.next (hl a List.mem_cons_self s)) fun b hb => hl b (List.mem_cons_of_mem a hb)

theorem run {s : σ} (h : Reach init ok step s) (l : List α) (hl : Allowed ok step s l) :
    Reach init ok step (l.foldl step s) := by
  induction l generalizing s with
  | nil => exact h
  | cons a l ih => exact ih (h.next hl.1) hl.2

end Reach

end Lib
