import Mathlib
/-!
# Name — account names

A name is a 64-bit number: up to twelve characters of five bits from the top, and a thirteenth of four bits.
-/
namespace TheChannel

abbrev AccountName := Nat

def charToSymbol (c : Char) : Nat :=
  if 'a' ≤ c ∧ c ≤ 'z' then c.toNat - 'a'.toNat + 6
  else if '1' ≤ c ∧ c ≤ '5' then c.toNat - '1'.toNat + 1
  else 0

/-- The first twelve characters, each in five bits from the top; `i` is the position of the first. -/
def symbolsFrom : Nat → List Char → Nat
  | _, [] => 0
  | i, c :: l => if i < 12 then ((charToSymbol c &&& 0x1f) <<< (64 - 5 * (i + 1))) ||| symbolsFrom (i + 1) l else 0

/-- `string_to_uint64_t`. -/
def stringToName (str : List Char) : Nat :=
  match str.drop 12 with
  | [] => symbolsFrom 0 str
  | c :: _ => symbolsFrom 0 str ||| (charToSymbol c &&& 0x0f)

def charmap : List Char := ".12345abcdefghijklmnopqrstuvwxyz".toList

def charsFrom : Nat → Nat → List Char
  | 0, _ => []
  | n + 1, tmp => charmap.getD (tmp &&& 0x1f) '.' :: charsFrom n (tmp >>> 5)

/-- `name::to_string`: the dots at the end are cut off. -/
def nameToString (value : Nat) : List Char :=
  ((charmap.getD (value &&& 0x0f) '.' :: charsFrom 12 (value >>> 4)).dropWhile (· == '.')).reverse

example : nameToString (stringToName ['r', 'a', '.', 'n', 'u', 'l', 'l']) = ['r', 'a', '.', 'n', 'u', 'l', 'l'] := by decide

theorem length_charsFrom : ∀ n tmp, (charsFrom n tmp).length = n
  | 0, _ => rfl
  | n + 1, tmp => congrArg Nat.succ (length_charsFrom n (tmp >>> 5))

theorem length_nameToString_le (value : Nat) : (nameToString value).length ≤ 13 := by
  unfold nameToString
  rw [List.length_reverse]
  refine (List.dropWhile_sublist _).length_le.trans ?_
  rw [List.length_cons, length_charsFrom]

/-- One character of `suffix`, from the left: the bits after the last dot with a character behind it, and the bits after
the last dot. -/
def suffixStep (value : Nat) (s : Nat × Nat) (remainingBits : Nat) : Nat × Nat :=
  if (value >>> remainingBits) &&& 0x1f = 0 then (s.1, remainingBits) else (s.2, s.2)

def nameSuffix (value : Nat) : Nat :=
  let s := [59, 54, 49, 44, 39, 34, 29, 24, 19, 14, 9, 4].foldl (suffixStep value) (0, 0)
  let thirteenthCharacter := value &&& 0x0f
  let remainingBits := if thirteenthCharacter = 0 then s.1 else s.2
  if remainingBits = 0 then value
  else ((value &&& (2 ^ remainingBits - 16)) <<< (64 - remainingBits)) + (thirteenthCharacter <<< (63 - remainingBits))

example : nameSuffix (stringToName ['r', 'a', '.', 'a', 'n', 'y']) = stringToName ['a', 'n', 'y'] := by decide

def systemAccountName : Nat := stringToName ['r', 'a']
def nullAccountName : Nat := stringToName ['r', 'a', '.', 'n', 'u', 'l', 'l']

end TheChannel
