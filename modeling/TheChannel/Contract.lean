import TheChannel.Fault
import TheChannel.LibRows
import TheChannel.Name
/-!
# Contract — what the contracts share

The accounts the contracts know by name, `check` and `require_auth`, and the assets of the contract library. An amount is
an `int64_t` whose magnitude the operations of assets keep below 2^62; a sum that wraps around fails the same checks.
-/
namespace TheChannel

-- the numbers of these names are for the kernel only
@[irreducible] def ramAccount : AccountName := stringToName ['r', 'a', '.', 'r', 'a', 'm']
@[irreducible] def ramfeeAccount : AccountName := stringToName ['r', 'a', '.', 'r', 'a', 'm', 'f', 'e', 'e']
@[irreducible] def stakeAccount : AccountName := stringToName ['r', 'a', '.', 's', 't', 'a', 'k', 'e']
@[irreducible] def bpayAccount : AccountName := stringToName ['r', 'a', '.', 'b', 'p', 'a', 'y']
@[irreducible] def vpayAccount : AccountName := stringToName ['r', 'a', '.', 'v', 'p', 'a', 'y']
@[irreducible] def namesAccount : AccountName := stringToName ['r', 'a', '.', 'n', 'a', 'm', 'e', 's']
@[irreducible] def savingAccount : AccountName := stringToName ['r', 'a', '.', 's', 'a', 'v', 'i', 'n', 'g']
@[irreducible] def feesAccount : AccountName := stringToName ['r', 'a', '.', 'f', 'e', 'e', 's']
@[irreducible] def reserveAccount : AccountName := stringToName ['r', 'a', '.', 'r', 'e', 's', 'e', 'r', 'v']

/-- What an action finds: who authorised it, and which accounts there are. -/
structure ActionEnv where
  hasAuth : AccountName → Bool
  isAccount : AccountName → Bool

def check (c : Bool) (msg : String) : Result Unit := eosAssert c .eosioAssertMessage msg

def ActionEnv.requireAuth (env : ActionEnv) (account : AccountName) : Result Unit :=
  eosAssert (env.hasAuth account) .missingAuth "missing authority of ${account}"

@[simp] theorem check_ok_iff (c : Bool) (msg : String) (u : Unit) : check c msg = .ok u ↔ c = true := eosAssert_ok_iff ..

variable {α : Type} {msg : String} {f : Unit → Result α} {a : α}

theorem check_bind {c : Bool} (h : c = true) (f : Unit → Result α) : (check c msg >>= f) = f () :=
  eosAssert_bind h f

theorem check_bind_ok_iff {c : Bool} : (check c msg >>= f) = .ok a ↔ c = true ∧ f () = .ok a := by
  rw [unit_bind_ok_iff, check_ok_iff]

theorem check_ok {c : Bool} (h : (check c msg >>= f) = .ok a) : c = true ∧ f () = .ok a := check_bind_ok_iff.1 h

theorem requireAuth_bind_ok_iff {env : ActionEnv} {account : AccountName} :
    (env.requireAuth account >>= f) = .ok a ↔ env.hasAuth account = true ∧ f () = .ok a := by
  unfold ActionEnv.requireAuth
  rw [unit_bind_ok_iff, eosAssert_ok_iff]

theorem silent_ok_iff {β : Type} {x : Result α} {l : List β} : x.map (·, []) = .ok (a, l) ↔ x = .ok a ∧ l = [] := by
  rw [map_ok_iff]
  simp [eq_comm]

/-! ## Machine integers -/

def toInt64 (x : Int) : Int := (x + 2 ^ 63) % 2 ^ 64 - 2 ^ 63

theorem toInt64_range (x : Int) : -2 ^ 63 ≤ toInt64 x ∧ toInt64 x < 2 ^ 63 := by
  unfold toInt64
  omega

theorem toInt64_eq {x : Int} (hlow : -2 ^ 63 ≤ x) (hh : x < 2 ^ 63) : toInt64 x = x := by
  unfold toInt64
  omega

theorem toInt64_add {x y : Int} (hx : 0 ≤ x ∧ x < 2 ^ 63) (hy : -2 ^ 63 ≤ y ∧ y < 2 ^ 63) (h : 0 ≤ toInt64 (x + y)) :
    toInt64 (x + y) = x + y := by
  unfold toInt64 at h ⊢
  omega

/-! ## Assets -/

structure Symbol where
  code : Nat
  precision : Nat
  deriving DecidableEq

def lettersOnly : Nat → Nat → Bool
  | 0, code => code == 0
  | n + 1, code => code == 0 || (decide (65 ≤ code % 256 ∧ code % 256 ≤ 90) && lettersOnly n (code / 256))

def Symbol.isValid (s : Symbol) : Bool := s.code != 0 && lettersOnly 7 s.code

structure Asset where
  amount : Int
  symbol : Symbol
  deriving DecidableEq

namespace Asset

def maxAmount : Int := 2 ^ 62 - 1

def withinRange (amount : Int) : Bool := decide (-maxAmount ≤ amount ∧ amount ≤ maxAmount)

def isValid (a : Asset) : Bool := withinRange a.amount && a.symbol.isValid

def make (amount : Int) (symbol : Symbol) : Result Asset :=
  check (withinRange amount) "magnitude of asset amount must be less than 2^62" >>= fun _ =>
  check symbol.isValid "invalid symbol name" >>= fun _ =>
  .ok ⟨amount, symbol⟩

def letters : Nat → Nat → List Char
  | 0, _ => []
  | n + 1, code => if code = 0 then [] else Char.ofNat (code % 256) :: letters n (code / 256)

def toString (a : Asset) : String :=
  let unit := 10 ^ a.symbol.precision
  let whole := String.ofList (Nat.toDigits 10 (a.amount.natAbs / unit))
  let cents := String.ofList ((Nat.toDigits 10 (unit + a.amount.natAbs % unit)).drop 1)
  (if a.amount < 0 then "-" else "") ++ whole ++ (if a.symbol.precision = 0 then "" else "." ++ cents) ++ " " ++
    String.ofList (letters 7 a.symbol.code)

example : toString ⟨-10204, ⟨16722, 4⟩⟩ = "-1.0204 RA" := by decide +kernel

def add (a b : Asset) : Result Asset :=
  check (b.symbol == a.symbol) "attempt to add asset with different symbol" >>= fun _ =>
  check (decide (-maxAmount ≤ a.amount + b.amount)) "addition underflow" >>= fun _ =>
  check (decide (a.amount + b.amount ≤ maxAmount)) "addition overflow" >>= fun _ =>
  .ok ⟨a.amount + b.amount, a.symbol⟩

def sub (a b : Asset) : Result Asset :=
  check (b.symbol == a.symbol) "attempt to subtract asset with different symbol" >>= fun _ =>
  check (decide (-maxAmount ≤ a.amount - b.amount)) "subtraction underflow" >>= fun _ =>
  check (decide (a.amount - b.amount ≤ maxAmount)) "subtraction overflow" >>= fun _ =>
  .ok ⟨a.amount - b.amount, a.symbol⟩

variable {a b c : Asset}

theorem make_ok_iff {amount : Int} {symbol : Symbol} :
    make amount symbol = .ok c ↔ withinRange amount = true ∧ symbol.isValid = true ∧ c = ⟨amount, symbol⟩ := by
  unfold make
  simp only [check_bind_ok_iff, Except.ok.injEq, eq_comm (a := c)]

theorem add_ok_iff : a.add b = .ok c ↔
    b.symbol = a.symbol ∧ (-maxAmount ≤ a.amount + b.amount ∧ a.amount + b.amount ≤ maxAmount) ∧
      c = ⟨a.amount + b.amount, a.symbol⟩ := by
  unfold add
  simp only [check_bind_ok_iff, beq_iff_eq, decide_eq_true_eq, Except.ok.injEq, and_assoc, eq_comm (a := c)]

theorem sub_ok_iff : a.sub b = .ok c ↔
    b.symbol = a.symbol ∧ (-maxAmount ≤ a.amount - b.amount ∧ a.amount - b.amount ≤ maxAmount) ∧
      c = ⟨a.amount - b.amount, a.symbol⟩ := by
  unfold sub
  simp only [check_bind_ok_iff, beq_iff_eq, decide_eq_true_eq, Except.ok.injEq, and_assoc, eq_comm (a := c)]

end Asset
end TheChannel
