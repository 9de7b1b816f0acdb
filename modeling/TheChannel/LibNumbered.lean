import Mathlib.Data.List.Chain
/-!
# LibNumbered — lists numbered consecutively

`NumberedFrom f s l`: the elements of `l` carry the numbers `s`, `s + 1`, … under `f`. A window of a numbered
sequence is such a list: it is indexed by subtraction (`numberedFrom_getElem?`), trimmed at the front by `drop`
(`numberedFrom_drop`) and extended at the back by one element (`numberedFrom_concat`).

`window f m L`: what a sequence kept newest first (`L`) shows of its `m` newest elements, oldest first.
-/
namespace TheChannel
open List

section Numbered

variable {α : Type} {f : α → Nat} {l : List α} {s : Nat} {x : α}

def NumberedFrom (f : α → Nat) : Nat → List α → Prop
  | _, [] => True
  | s, x :: l => f x = s ∧ NumberedFrom f (s + 1) l

theorem numberedFrom_getElem? : ∀ {l} {s i : Nat} {x : α}, NumberedFrom f s l → l[i]? = some x → f x = s + i
  | [], _, _, _, _, h => by simp at h
  | y :: _, s, 0, x, hl, h => by
    obtain rfl : y = x := by simpa using h
    exact hl.1
  | _ :: l, s, i + 1, x, hl, h => by
    have := numberedFrom_getElem? (l := l) hl.2 (by simpa using h)
    omega

theorem numberedFrom_mem (hl : NumberedFrom f s l) (hx : x ∈ l) : s ≤ f x ∧ f x < s + l.length := by
  obtain ⟨i, hi, rfl⟩ := getElem_of_mem hx
  have := numberedFrom_getElem? hl (getElem?_eq_getElem hi)
  omega

theorem numberedFrom_lookup {n : Nat} (hl : NumberedFrom f s l) (h1 : s ≤ n) (h2 : n < s + l.length) :
    ∃ x, l[n - s]? = some x ∧ f x = n := by
  have hi : n - s < l.length := by omega
  refine ⟨l[n - s], getElem?_eq_getElem hi, ?_⟩
  have := numberedFrom_getElem? hl (getElem?_eq_getElem hi)
  omega

theorem numberedFrom_drop : ∀ {l} {s : Nat} (k : Nat), NumberedFrom f s l → NumberedFrom f (s + k) (l.drop k)
  | [], _, _, _ => by simp [NumberedFrom]
  | _ :: _, _, 0, hl => hl
  | _ :: l, s, k + 1, hl => by
    have := numberedFrom_drop (l := l) k hl.2
    rwa [show s + 1 + k = s + (k + 1) by omega] at this

theorem numberedFrom_append : ∀ {l l'} {s : Nat},
    NumberedFrom f s (l ++ l') ↔ NumberedFrom f s l ∧ NumberedFrom f (s + l.length) l'
  | [], _, _ => by simp [NumberedFrom]
  | x :: l, l', s => by
    simp only [cons_append, NumberedFrom, length_cons]
    rw [numberedFrom_append (l := l), show s + 1 + l.length = s + (l.length + 1) by omega, and_assoc]

theorem numberedFrom_concat (hl : NumberedFrom f s l) (hx : f x = s + l.length) : NumberedFrom f s (l ++ [x]) :=
  numberedFrom_append.2 ⟨hl, hx, trivial⟩

theorem numberedFrom_head? (hl : NumberedFrom f s l) (hx : l.head? = some x) : f x = s := by
  cases l with
  | nil => simp at hx
  | cons y l => obtain rfl : y = x := by simpa using hx
                exact hl.1

theorem numberedFrom_getLast? (hl : NumberedFrom f s l) (hx : l.getLast? = some x) : f x + 1 = s + l.length := by
  rw [getLast?_eq_getElem?] at hx
  have hlt : l.length - 1 < l.length := (List.getElem?_eq_some_iff.1 hx).1
  have := numberedFrom_getElem? hl hx
  omega

theorem isChain_of_numberedFrom {R : α → α → Prop} : ∀ {l} {s : Nat}, NumberedFrom f s l → l.Pairwise R →
    l.IsChain (fun a b => f a + 1 = f b ∧ R a b)
  | [], _, _, _ => isChain_nil
  | [_], _, _, _ => isChain_singleton _
  | _ :: _ :: _, _, hl, hp => isChain_cons_cons.2
      ⟨⟨by rw [hl.1, hl.2.1], rel_of_pairwise_cons hp (by simp)⟩, isChain_of_numberedFrom hl.2 hp.of_cons⟩

theorem descending_getElem? : ∀ {k : Nat} {x y : α} {l}, (x :: l).IsChain (fun a b => f a = f b + 1) →
    (x :: l)[k]? = some y → f y + k = f x
  | 0, x, y, _, _, h => by
    obtain rfl : x = y := by simpa using h
    rfl
  | k + 1, _, _, [], _, h => by simp at h
  | k + 1, _, _, _ :: _, hl, h => by
    have := descending_getElem? (k := k) (isChain_cons_cons.1 hl).2 (by simpa using h)
    have := (isChain_cons_cons.1 hl).1
    omega

end Numbered

section Window

variable {α β : Type} {f : α → β} {L : List α}

def window (f : α → β) (m : Nat) (L : List α) : List β := ((L.take m).map f).reverse

theorem window_length {m : Nat} (hm : m ≤ L.length) : (window f m L).length = m := by
  simp [window, hm]

theorem window_drop_concat {m k : Nat} (hm : m ≤ L.length) (x : α) :
    (window f m L).drop k ++ [f x] = window f (m - k + 1) (x :: L) := by
  have hlen : ((L.take m).map f).length = m := by simp [hm]
  simp only [window, take_succ_cons, map_cons, reverse_cons]
  rw [drop_reverse, hlen, ← map_take, take_take, Nat.min_eq_left (Nat.sub_le m k)]

theorem window_getElem? {m i : Nat} (hi : i < m) (hm : m ≤ L.length) : (window f m L)[i]? = (L[m - 1 - i]?).map f := by
  have hlen : ((L.take m).map f).length = m := by simp [hm]
  rw [window, getElem?_reverse (by omega), hlen, getElem?_map, getElem?_take_of_lt (by omega)]

end Window
end TheChannel
