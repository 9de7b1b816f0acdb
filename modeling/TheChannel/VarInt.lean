import Mathlib.Algebra.Group.Nat.Defs
/-!
# VarInt — integers in groups of seven bits

`unsigned_int` and `signed_int` are packed in groups of seven bits, the lowest first, the highest bit of a byte set if another one
follows. What is packed is read back. The loop that reads an `unsigned_int` stops after five bytes, the one for a `signed_int` only
at a byte without that bit (`varint_exact_iff`).
-/
namespace TheChannel
namespace VarInt

def packGroups (val : Nat) : List UInt8 :=
  if val >>> 7 = 0 then [UInt8.ofNat val &&& 0x7f]
  else (UInt8.ofNat val &&& 0x7f ||| 0x80) :: packGroups (val >>> 7)
termination_by val
decreasing_by
  rw [Nat.shiftRight_eq_div_pow] at *
  omega

/-- The loop of both `unpack`s, which goes on after a byte with the highest bit while `more` allows the next shift: the shifts
made, one for each byte read, and the value with the rest of the stream, unless the stream ends before. -/
def unpackGroups (more : Nat → Bool) : Nat → Nat → List UInt8 → List Nat × Option (Nat × List UInt8)
  | _, _, [] => ([], none)
  | v, shift, b :: bytes =>
    let v := v ||| ((b &&& 0x7f).toNat <<< shift) % 2 ^ 32
    if b &&& 0x80 ≠ 0 ∧ more (shift + 7) then
      let r := unpackGroups more v (shift + 7) bytes
      (shift :: r.1, r.2)
    else ([shift], some (v, bytes))

def packUnsigned (v : UInt32) : List UInt8 := packGroups v.toNat

def unpackUnsigned (bytes : List UInt8) : List Nat × Option (UInt32 × List UInt8) :=
  (unpackGroups (· < 32) 0 0 bytes).map id (·.map (Prod.map UInt32.ofNat id))

/-- The zigzag encoding, and back as the code computes it, in 64 bits. -/
def zigzag (v : BitVec 32) : BitVec 32 := v <<< 1 ^^^ v.sshiftRight 31

def unzigzag (v : BitVec 32) : BitVec 32 := ((v >>> 1).setWidth 64 ^^^ ((~~~(v &&& 1)).setWidth 64 + 1)).setWidth 32

def packSigned (v : Int32) : List UInt8 := packGroups (zigzag v.toBitVec).toNat

def unpackSigned (bytes : List UInt8) : List Nat × Option (Int32 × List UInt8) :=
  (unpackGroups (fun _ => true) 0 0 bytes).map id (·.map (Prod.map (fun v => ⟨⟨unzigzag (BitVec.ofNat 32 v)⟩⟩) id))

/-! ## What is packed is read back -/

theorem unzigzag_eq (w : BitVec 32) : unzigzag w = w >>> 1 ^^^ BitVec.fill 32 (w.getLsbD 0) := by
  have hw : w &&& 1 = if w.getLsbD 0 then 1 else 0 := by
    ext i hi
    cases h : w.getLsbD 0 <;> cases i <;> simp_all
  unfold unzigzag
  rw [hw, BitVec.setWidth_xor, BitVec.setWidth_setWidth_of_le _ (by decide)]
  cases w.getLsbD 0 <;> rfl

theorem unzigzag_zigzag (v : BitVec 32) : unzigzag (zigzag v) = v := by
  -- the lowest bit is the sign, which the shift copied to all bits
  have hsign : v.msb = v[31] := rfl
  have hlow : (zigzag v).getLsbD 0 = v.msb := by simp [zigzag, BitVec.getElem_sshiftRight, hsign]
  rw [unzigzag_eq, hlow]
  unfold zigzag
  ext i hi
  by_cases h31 : i = 31
  · subst h31
    simp [hsign]
  · have hlt : 1 + i < 32 := by omega
    have hge : ¬ 31 + (1 + i) < 32 := by omega
    simp [BitVec.getElem_sshiftRight, hlt, hge, hsign]

theorem group_flag (c : UInt8) : (c &&& 0x7f) &&& 0x80 = 0 ∧ (c &&& 0x7f) &&& 0x7f = c &&& 0x7f ∧
    (c &&& 0x7f ||| 0x80) &&& 0x80 ≠ 0 ∧ (c &&& 0x7f ||| 0x80) &&& 0x7f = c &&& 0x7f := by
  obtain ⟨⟨c⟩⟩ := c
  revert c
  decide +kernel

theorem group_toNat (val : Nat) : (UInt8.ofNat val &&& 0x7f).toNat = val % 128 := by
  rw [UInt8.toNat_and, UInt8.toNat_ofNat']
  change val % 256 &&& (2 ^ 7 - 1) = _
  rw [Nat.and_two_pow_sub_one_eq_mod]
  omega

theorem or_group (val : Nat) : val % 128 ||| (val >>> 7) <<< 7 = val := by
  rw [Nat.or_comm, ← Nat.shiftLeft_add_eq_or_of_lt (Nat.mod_lt val (by decide)), Nat.shiftLeft_eq, Nat.shiftRight_eq_div_pow]
  omega

/-- Among the first `n` bytes one has not the highest bit, or the stream ends there. -/
def Ends (n : Nat) (bytes : List UInt8) : Prop := bytes.length ≤ n ∨ ∃ b ∈ bytes.take n, b &&& 0x80 = 0

def Bounded (n : Nat) (shifts : List Nat) : Prop := shifts.length ≤ n ∧ ∀ shift ∈ shifts, shift < 32

section

variable (more : Nat → Bool) (hmore : ∀ n < 32, more n = true)
include hmore

theorem unpackGroups_pack (val : Nat) : ∀ (v shift : Nat) (rest : List UInt8), val <<< shift < 2 ^ 32 →
    (unpackGroups more v shift (packGroups val ++ rest)).2 = some (v ||| val <<< shift, rest) := by
  fun_induction packGroups val with
  | case1 val h =>
    intro v shift rest hlt
    obtain ⟨hb, hc, -⟩ := group_flag (UInt8.ofNat val)
    have hv : val % 128 = val := Nat.mod_eq_of_lt (by rw [Nat.shiftRight_eq_div_pow] at h; omega)
    rw [List.singleton_append, unpackGroups, if_neg (by simp [hb])]
    dsimp only
    rw [hc, group_toNat, hv, Nat.mod_eq_of_lt hlt]
  | case2 val h ih =>
    intro v shift rest hlt
    obtain ⟨-, -, hb, hc⟩ := group_flag (UInt8.ofNat val)
    have hsplit : (val % 128) <<< shift ||| (val >>> 7) <<< (shift + 7) = val <<< shift := by
      rw [Nat.add_comm shift, Nat.shiftLeft_add, ← Nat.shiftLeft_or_distrib, or_group]
    have hgr : (val % 128) <<< shift < 2 ^ 32 := Nat.lt_of_le_of_lt (hsplit ▸ Nat.left_le_or) hlt
    have hsh : (val >>> 7) <<< (shift + 7) < 2 ^ 32 := Nat.lt_of_le_of_lt (hsplit ▸ Nat.right_le_or) hlt
    have hm : shift + 7 < 32 := by
      refine (Nat.pow_lt_pow_iff_right (a := 2) (by decide)).1 (Nat.lt_of_le_of_lt ?_ hsh)
      rw [Nat.shiftLeft_eq]
      exact Nat.le_mul_of_pos_left _ (Nat.pos_of_ne_zero h)
    rw [List.cons_append, unpackGroups, if_pos ⟨hb, hmore _ hm⟩]
    dsimp only
    rw [ih _ _ rest hsh, hc, group_toNat, Nat.mod_eq_of_lt hgr, Nat.or_assoc, hsplit]

theorem unpackGroups_bounded_iff : ∀ (bytes : List UInt8) (v n shift : Nat), shift + 7 * n = 35 →
    (Bounded n (unpackGroups more v shift bytes).1 ↔ 0 < n ∧ more 35 = false ∨ Ends n bytes)
  | [], _, _, _, _ => by simp [unpackGroups, Bounded, Ends]
  | b :: bytes, v, 0, shift, h => by
    unfold unpackGroups
    split <;> simp [Bounded, Ends]
  | b :: bytes, v, n + 1, shift, h => by
    have hs : shift < 32 := by omega
    have ih := fun v => unpackGroups_bounded_iff bytes v n (shift + 7) (by omega)
    unfold Bounded Ends at *
    unfold unpackGroups
    by_cases hb : b &&& 0x80 = 0
    · simp [hb, hs]
    rcases Nat.eq_zero_or_pos n with rfl | hn
    · have h35 : shift + 7 = 35 := by omega
      cases hm : more 35 <;> simp_all
    · have := hmore (shift + 7) (by omega)
      simp_all

end

/-- **Variable-length integers**: every value is read back from its packed form, with exactly its bytes, so no two values share one.
Of every stream whatsoever an `unsigned_int` takes at most five bytes and shifts by less than 32 bits, a `signed_int` exactly if one
of the first five bytes ends it or the stream ends there. -/
theorem varint_exact_iff (bytes : List UInt8) : (∀ v rest, (unpackUnsigned (packUnsigned v ++ rest)).2 = some (v, rest)) ∧
    (∀ v rest, (unpackSigned (packSigned v ++ rest)).2 = some (v, rest)) ∧
    Function.Injective packUnsigned ∧ Function.Injective packSigned ∧
    Bounded 5 (unpackUnsigned bytes).1 ∧ (Bounded 5 (unpackSigned bytes).1 ↔ Ends 5 bytes) := by
  have hu : ∀ v rest, (unpackUnsigned (packUnsigned v ++ rest)).2 = some (v, rest) := fun v rest => by
    have h := unpackGroups_pack (· < 32) (fun n hn => decide_eq_true hn) v.toNat 0 0 rest v.toNat_lt
    simp [unpackUnsigned, packUnsigned, h]
  have hs : ∀ v rest, (unpackSigned (packSigned v ++ rest)).2 = some (v, rest) := fun v rest => by
    have h := unpackGroups_pack (fun _ => true) (fun _ _ => rfl) (zigzag v.toBitVec).toNat 0 0 rest (zigzag v.toBitVec).isLt
    simp [unpackSigned, packSigned, h, unzigzag_zigzag]
  refine ⟨hu, hs, fun v w h => ?_, fun v w h => ?_, ?_, ?_⟩
  · exact (Prod.mk.inj (Option.some.inj ((hu v []).symm.trans (h ▸ hu w [])))).1
  · exact (Prod.mk.inj (Option.some.inj ((hs v []).symm.trans (h ▸ hs w [])))).1
  · exact (unpackGroups_bounded_iff (· < 32) (fun n hn => decide_eq_true hn) bytes 0 5 0 rfl).2 (.inl (by decide))
  · exact (unpackGroups_bounded_iff (fun _ => true) (fun _ _ => rfl) bytes 0 5 0 rfl).trans (by simp)

theorem signed_shifts_too_far : (unpackSigned [0x80, 0x80, 0x80, 0x80, 0x80, 0]).1 = [0, 7, 14, 21, 28, 35] := by decide

end VarInt
end TheChannel
