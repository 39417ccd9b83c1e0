import Mathlib.Data.List.Basic
import Mathlib.Order.MinMax
import Mathlib.Tactic.Common

-- Values at the positions above a base up to a last one. The base has a label of its own.
@[ext]
structure Window (β α : Type*) where
  base       : ℕ
  label      : β
  last       : ℕ
  get        : ℕ → Option α
  isSome_get : ∀ i, (get i).isSome ↔ base < i ∧ i ≤ last
  base_le    : base ≤ last

namespace Window

variable {β α : Type*} {w : Window β α} {b i j : ℕ} {l l' : β} {vs vs' : List α}

def reset (i : ℕ) (l : β) : Window β α where
  base         := i
  label        := l
  last         := i
  get _        := none
  isSome_get _ := iff_of_false Bool.false_ne_true (by omega)
  base_le      := le_rfl

-- What follows from position `i` on is replaced.
def splice (w : Window β α) (i : ℕ) (vs : List α) (h : w.base < i ∧ i ≤ w.last + 1) : Window β α where
  base         := w.base
  label        := w.label
  last         := i - 1 + vs.length
  get j        := if j < i then w.get j else vs[j - i]?
  isSome_get j := by
    split
    case isTrue  => rw [w.isSome_get]; omega
    case isFalse => simp; omega
  base_le      := by omega

def append (w : Window β α) (vs : List α) : Window β α :=
  w.splice (w.last + 1) vs ⟨Nat.lt_succ_of_le w.base_le, le_rfl⟩

-- The base moves up to position `i`, unless it is there already.
def dropTo (w : Window β α) (i : ℕ) (l : β) : Window β α :=
  if h : i ≤ w.base then
    w
  else
    { base         := i
      label        := l
      last         := max i w.last
      get j        := if j ≤ i then none else w.get j
      isSome_get j := by
        split
        case isTrue  => exact iff_of_false Bool.false_ne_true (by omega)
        case isFalse => rw [w.isSome_get]; omega
      base_le      := le_max_left .. }

/-! ### Windows as lists -/

-- The values of a list, one position after the other.
def ofList (b : ℕ) (l : β) (vs : List α) : Window β α where
  base         := b
  label        := l
  last         := b + vs.length
  get j        := if j ≤ b then none else vs[j - b - 1]?
  isSome_get j := by
    split
    case isTrue  => exact iff_of_false Bool.false_ne_true (by omega)
    case isFalse => simp; omega
  base_le      := Nat.le_add_right ..

theorem reset_eq (i : ℕ) (l : β) : (reset i l : Window β α) = ofList i l [] := by
  refine Window.ext rfl rfl rfl (funext fun j => ?_)
  simp [reset, ofList]

theorem splice_ofList (h : b < i ∧ i ≤ b + vs.length + 1) :
    (ofList b l vs).splice i vs' h = ofList b l (vs.take (i - b - 1) ++ vs') := by
  have hlen : (vs.take (i - b - 1)).length = i - b - 1 := by
    rw [List.length_take]
    omega
  refine Window.ext rfl rfl ?_ (funext fun j => ?_)
  case refine_1 =>
    simp only [splice, ofList, List.length_append, hlen]
    omega
  case refine_2 =>
    simp only [splice, ofList, List.getElem?_append, hlen]
    by_cases hb : j ≤ b
    case pos => rw [if_pos hb, if_pos hb, if_pos (by omega)]
    case neg =>
      rw [if_neg hb, if_neg hb]
      split
      case isTrue hi  => rw [if_pos (by omega), List.getElem?_take_of_lt (by omega)]
      case isFalse hi =>
        rw [if_neg (by omega)]
        congr 1
        omega

theorem append_ofList : (ofList b l vs).append vs' = ofList b l (vs ++ vs') := by
  have htake : vs.take ((ofList b l vs).last + 1 - b - 1) = vs := by
    refine List.take_of_length_le ?_
    simp only [ofList]
    omega
  exact (splice_ofList _).trans (by rw [htake])

theorem dropTo_ofList_of_le (h : i ≤ b) : (ofList b l vs).dropTo i l' = ofList b l vs :=
  dif_pos h

theorem dropTo_ofList_of_lt (h : b < i) : (ofList b l vs).dropTo i l' = ofList i l' (vs.drop (i - b)) := by
  rw [dropTo, dif_neg (show ¬i ≤ (ofList b l vs).base from Nat.not_le.mpr h)]
  refine Window.ext rfl rfl ?_ (funext fun j => ?_)
  case refine_1 =>
    simp only [ofList, List.length_drop]
    omega
  case refine_2 =>
    simp only [ofList, List.getElem?_drop]
    split
    case isTrue  => rfl
    case isFalse =>
      rw [if_neg (by omega)]
      congr 1
      omega

-- Listing the positions from `i` on gives the values in their order.
theorem filterMap_range' {f : ℕ → Option α} (h : ∀ k, k < vs.length → f (i + k) = vs[k]?) :
    (List.range' i vs.length).filterMap f = vs := by
  induction vs generalizing i
  case nil => rfl
  case cons v vs hi =>
    have h₀ : f i = some v := h 0 (Nat.zero_lt_succ _)
    rw [List.length_cons, List.range'_succ, List.filterMap_cons_some h₀, hi]
    intro k hk
    have := h (k + 1) (Nat.succ_lt_succ hk)
    rwa [← Nat.add_assoc, Nat.add_right_comm] at this

end Window
