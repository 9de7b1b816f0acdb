import Mathlib.Data.Nat.Log
import Mathlib.Tactic.Ring
/-!
# LibMerkle — Merkle trees over a list of leaves, and the stack of perfect trees

`merkle` splits a list at the largest power of two below its length. A stack holds one perfect tree for each bit of a
number, the smallest first; pushing a leaf carries as adding one to the number does. The stack of a list of leaves folds
to the list's root.
-/
namespace TheChannel
open List

namespace Merkle
variable {D : Type} [Inhabited D] (combine : D → D → D)

def perfect : Nat → List D → D
  | 0, l => l.headD default
  | k + 1, l => combine (perfect k (l.take (2 ^ k))) (perfect k (l.drop (2 ^ k)))

/-- **The root of a list of leaves**: a perfect tree of as many leaves as possible, and the rest. -/
def merkle (l : List D) : D :=
  if l.length ≤ 1 then l.headD default
  else combine (perfect combine (Nat.log 2 (l.length - 1)) (l.take (2 ^ Nat.log 2 (l.length - 1))))
    (merkle (l.drop (2 ^ Nat.log 2 (l.length - 1))))
termination_by l.length
decreasing_by
  have := Nat.two_pow_pos (Nat.log 2 (l.length - 1))
  rw [length_drop]
  omega

def foldStack : List D → D
  | [] => default
  | t :: st => st.foldl (fun acc t => combine t acc) t

/-- Put a tree on the stack of `n`, in units of its own size. -/
def push : Nat → D → List D → List D
  | _, d, [] => [d]
  | n, d, t :: st => if n % 2 = 1 then push (n / 2) (combine t d) st else d :: t :: st

/-- **The stack of a list of leaves**: from the trees of `2 ^ i` leaves on, it has one tree for each bit of `n`. -/
inductive Stacked : (i n : Nat) → (stack leaves : List D) → Prop
  | nil (i : Nat) : Stacked i 0 [] []
  | zero {i n : Nat} {st l : List D} (above : Stacked (i + 1) n st l) : Stacked i (2 * n) st l
  | one {i n : Nat} {st l c : List D} (above : Stacked (i + 1) n st l) (size : c.length = 2 ^ i) :
      Stacked i (2 * n + 1) (perfect combine i c :: st) (l ++ c)

variable {combine} {c l : List D} {k : Nat}

theorem perfect_append {c' : List D} (h : c.length = 2 ^ k) :
    perfect combine (k + 1) (c ++ c') = combine (perfect combine k c) (perfect combine k c') := by
  rw [perfect, ← h, take_left, drop_left]

theorem merkle_append (hc : c.length = 2 ^ k) (h0 : l ≠ []) (hl : l.length ≤ 2 ^ k) :
    merkle combine (c ++ l) = combine (perfect combine k c) (merkle combine l) := by
  have hpos := length_pos_iff.2 h0
  have hp := Nat.two_pow_pos k
  have hlo : Nat.log 2 ((c ++ l).length - 1) = k := by
    rw [length_append, hc]
    refine Nat.log_eq_of_pow_le_of_lt_pow (by omega) ?_
    rw [Nat.pow_succ]
    omega
  rw [merkle, if_neg (by rw [length_append]; omega), hlo, ← hc, take_left, drop_left]

theorem merkle_split (h1 : 2 ^ k < l.length) (h2 : l.length ≤ 2 ^ (k + 1)) :
    merkle combine l = combine (perfect combine k (l.take (2 ^ k))) (merkle combine (l.drop (2 ^ k))) := by
  rw [Nat.pow_succ] at h2
  have hd : (l.drop (2 ^ k)).length = l.length - 2 ^ k := length_drop ..
  have hne : l.drop (2 ^ k) ≠ [] := length_pos_iff.1 (by omega)
  have ht : (l.take (2 ^ k)).length = 2 ^ k := by rw [length_take]; omega
  have happ : merkle combine (l.take (2 ^ k) ++ l.drop (2 ^ k)) = _ := merkle_append ht hne (by omega)
  rwa [take_append_drop] at happ

theorem merkle_perfect : ∀ {k : Nat} {l}, l.length = 2 ^ k → merkle combine l = perfect combine k l
  | 0, l, h => by rw [merkle, if_pos (by omega), perfect]
  | k + 1, l, h => by
    have hp := Nat.two_pow_pos k
    have hd : (l.drop (2 ^ k)).length = 2 ^ k := by rw [length_drop, h, Nat.pow_succ]; omega
    rw [merkle_split (k := k) (by rw [h, Nat.pow_succ]; omega) (Nat.le_of_eq h), merkle_perfect hd, perfect]

namespace Stacked
variable {i n : Nat} {st l c : List D}

section

variable (h : Stacked combine i n st l)

include h

theorem push (hc : c.length = 2 ^ i) :
    Stacked combine i (n + 1) (Merkle.push combine n (perfect combine i c) st) (l ++ c) := by
  induction h generalizing c with
  | nil i => exact one (n := 0) (nil (i + 1)) hc
  | @zero i n st l above ih =>
    have hst : Merkle.push combine (2 * n) (perfect combine i c) st = perfect combine i c :: st := by
      cases st with
      | nil => rfl
      | cons t st => rw [Merkle.push, if_neg (by omega)]
    rw [hst]
    exact one above hc
  | @one i n st l c' above size ih =>
    have hst : Merkle.push combine (2 * n + 1) (perfect combine i c) (perfect combine i c' :: st) =
        Merkle.push combine n (perfect combine (i + 1) (c' ++ c)) st := by
      rw [Merkle.push, if_pos (by omega), show (2 * n + 1) / 2 = n by omega, perfect_append size]
    rw [hst, append_assoc, show 2 * n + 1 + 1 = 2 * (n + 1) by ring]
    exact zero (ih (by rw [length_append, size, hc, Nat.pow_succ]; omega))

theorem foldl_eq : ∀ {tail}, tail ≠ [] → tail.length < 2 ^ i →
    st.foldl (fun acc t => combine t acc) (merkle combine tail) = merkle combine (l ++ tail) := by
  induction h with
  | nil i => exact fun _ _ => rfl
  | @zero i n st l above ih =>
    intro tail hne hlt
    exact ih hne (by rw [Nat.pow_succ]; omega)
  | @one i n st l c above size ih =>
    intro tail hne hlt
    have hstep : combine (perfect combine i c) (merkle combine tail) = merkle combine (c ++ tail) :=
      (merkle_append size hne (Nat.le_of_lt hlt)).symm
    rw [foldl_cons, hstep, append_assoc]
    refine ih (by simp [hne]) ?_
    rw [length_append, size, Nat.pow_succ]
    omega

theorem foldStack_eq : foldStack combine st = merkle combine l := by
  induction h with
  | nil i => rw [merkle, if_pos (by simp)]; rfl
  | zero above ih => exact ih
  | @one i n st l c above size ih =>
    have hp := Nat.two_pow_pos i
    rw [foldStack, ← merkle_perfect size]
    refine above.foldl_eq (length_pos_iff.1 (by omega)) ?_
    rw [size, Nat.pow_succ]
    omega

theorem eq_zero (hst : st = []) : n = 0 := by
  induction h with
  | nil i => rfl
  | zero above ih => rw [ih hst]
  | one above size ih => cases hst

theorem length_eq : l.length = n * 2 ^ i := by
  induction h with
  | nil i => simp
  | zero above ih => rw [ih, Nat.pow_succ]; ring
  | one above size ih => rw [length_append, ih, size, Nat.pow_succ]; ring

end

end Stacked
end Merkle
end TheChannel
