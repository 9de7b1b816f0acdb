import Mathlib.Data.List.DropRight
import Mathlib.Data.List.Count
/-!
# Endpoint — addresses of peers

`net_utils.hpp`: `split_host_port_type` reads an address and `endpoint::address` writes it, the latter with a bare colon, also
when the host came out of square brackets. Reading the written address gives the host and port again for every address without
brackets, and otherwise exactly where the host has no colon behind its first character and starts neither with a space nor with
a bracket (`address_round_trip_iff`); an IPv6 address becomes another one (`ipv6_address_lost`).
-/
namespace TheChannel
namespace Endpoint
open List

def maxP2pAddressLength : Nat := 253 + 6 + 30

def isSpace (c : Char) : Bool := c == ' ' || (9 ≤ c.toNat && c.toNat ≤ 13)

def trim (s : List Char) : List Char := (s.dropWhile isSpace).rdropWhile isSpace

def find (s : List Char) (c : Char) (pos : Nat) : Option Nat := ((s.drop pos).findIdx? (· == c)).map (pos + ·)

def findEndBracket (endpoint : List Char) : Except String Nat :=
  if endpoint.head? = some '[' then
    match find endpoint ']' 0 with
    | none => .error "Invalid address specification ${a}, IPv6 no closing square bracket"
    | some endBracket => .ok endBracket
  else if 7 ≤ endpoint.count ':' then
    .error "Invalid address specification ${a}; IPv6 addresses must be enclosed in square brackets."
  else if endpoint.count ':' < 1 ∨ 3 < endpoint.count ':' then
    .error "Invalid address specification ${a}; unexpected number of colons."
  else .ok 0

/-- The port up to the next colon with what follows it; where there is none, the digits in front, and the source takes the
remainder of what it has already cut. -/
def portAndRemainder (rest : List Char) : List Char × List Char :=
  match find rest ':' 0 with
  | some colon2 => (rest.take colon2, rest.drop (colon2 + 1))
  | none =>
    match rest.findIdx? (!·.isDigit) with
    | none => (rest, [])
    | some portEnd => (rest.take portEnd, (rest.take portEnd).drop portEnd)

def splitEndpoint (endpoint : List Char) (endBracket : Nat) : Except String (List Char × List Char × List Char) :=
  match find endpoint ':' (endBracket + 1) with
  | none => .error "Invalid address specification ${a}; missing port specification."
  | some colon =>
    if endBracket ≠ 0 ∧ endBracket + 1 ≠ colon then
      .error "Invalid address specification ${a}; unexpected character after ']'."
    else
      let host := if endBracket ≠ 0 then (endpoint.drop 1).take (endBracket - 1) else endpoint.take colon
      .ok (host, portAndRemainder (endpoint.drop (colon + 1)))

/-- The checks of `split_host_port_remainder`, each with its text, and the parts of a text that passes them. -/
def splitSpecification (endpointInput : List Char) : Except String (List Char × List Char × List Char) :=
  if maxP2pAddressLength < endpointInput.length then .error "Address specification exceeds max p2p address length"
  else if (trim endpointInput).isEmpty then .error "Address specification is empty"
  else (findEndBracket (trim endpointInput)).bind (splitEndpoint (trim endpointInput))

/-- `split_host_port_remainder`: what is wrong with a text is thrown or, if it should not be, answered with empty strings. -/
def splitHostPortRemainder (endpointInput : List Char) (shouldThrow : Bool) :
    Except String (List Char × List Char × List Char) :=
  match splitSpecification endpointInput with
  | .ok parts => .ok parts
  | .error text => if shouldThrow then .error text else .ok ([], [], [])

def splitHostPortType (endpoint : List Char) : List Char × List Char × List Char :=
  match splitHostPortRemainder endpoint false with
  | .error _ => ([], [], [])
  | .ok (host, port, remainder) =>
    if host.isEmpty || port.isEmpty then ([], [], [])
    else
      let type := if remainder.take 3 = ['b', 'l', 'k'] ∨ remainder.take 3 = ['t', 'r', 'x'] then remainder.take 3 else []
      (host, port, type)

def address (host port : List Char) : List Char := host ++ ':' :: port

/-! ## Positions -/

variable {s u v host port : List Char} {c : Char} {pos i : Nat}

theorem findIdx?_of_notMem (h : c ∉ u) : u.findIdx? (· == c) = none :=
  findIdx?_eq_none_iff.2 fun _ ha => beq_false_of_ne (ne_of_mem_of_not_mem ha h)

theorem find_of_cut (hs : s.drop pos = u ++ c :: v) (hu : c ∉ u) : find s c pos = some (pos + u.length) := by
  rw [find, hs, findIdx?_append, findIdx?_of_notMem hu]
  simp [findIdx?_cons]

theorem cut_of_find (h : find s c pos = some i) : ∃ u v, s.drop pos = u ++ c :: v ∧ c ∉ u ∧ i = pos + u.length := by
  obtain ⟨k, hk, rfl⟩ := Option.map_eq_some_iff.1 h
  obtain ⟨hlt, hc, hu⟩ := findIdx?_eq_some_iff_getElem.1 hk
  refine ⟨(s.drop pos).take k, (s.drop pos).drop (k + 1), ?_, fun hmem => ?_, ?_⟩
  · rw [← beq_iff_eq.1 hc, ← drop_eq_getElem_cons hlt, take_append_drop]
  · obtain ⟨j, hj, rfl⟩ := mem_take_iff_getElem.1 hmem
    exact hu j (by omega) (by simp)
  · rw [length_take, Nat.min_eq_left hlt.le]

theorem head_trim (h : (trim s).head? = some c) : isSpace c = false := by
  obtain ⟨r, hr⟩ := rdropWhile_prefix isSpace (s.dropWhile isSpace)
  have hdrop := head?_dropWhile_not isSpace s
  unfold trim at h
  rwa [← hr, head?_append, h] at hdrop

theorem length_trim_le : (trim s).length ≤ s.length := by
  have hcut := rdropWhile_prefix isSpace (s.dropWhile isSpace)
  exact hcut.length_le.trans (length_dropWhile_le _ _)

/-! ## Hosts that can be read again -/

/-- A host that is read back when it is written without brackets. -/
def PlainHost (host : List Char) : Prop := ∃ c t, host = c :: t ∧ isSpace c = false ∧ c ≠ '[' ∧ ':' ∉ t

theorem not_space_of_digit (h : c.isDigit = true) : isSpace c = false := by
  simp only [Char.isDigit, Bool.and_eq_true, decide_eq_true_eq, UInt32.le_iff_toNat_le] at h
  have hne : c ≠ ' ' := by
    rintro rfl
    exact absurd h.1 (by decide)
  have h9 : 48 ≤ c.toNat := h.1
  simp only [isSpace, Bool.or_eq_false_iff, beq_eq_false_iff_ne, Bool.and_eq_false_iff, decide_eq_false_iff_not]
  exact ⟨hne, .inr (by omega)⟩

theorem colon_notMem_of_digits (h : ∀ c ∈ port, c.isDigit = true) : ':' ∉ port :=
  fun hc => absurd (h _ hc) (by decide)

theorem portAndRemainder_digits (h : ∀ c ∈ port, c.isDigit = true) : portAndRemainder port = (port, []) := by
  have hdig : port.findIdx? (!·.isDigit) = none := findIdx?_eq_none_iff.2 fun c hc => by simp [h c hc]
  simp [portAndRemainder, find, findIdx?_of_notMem (colon_notMem_of_digits h), hdig]

theorem splitSpecification_address (hhost : PlainHost host) (hne : port ≠ []) (h : ∀ c ∈ port, c.isDigit = true)
    (hlen : (address host port).length ≤ maxP2pAddressLength) :
    splitSpecification (address host port) = .ok (host, port, []) := by
  have htrim : trim (address host port) = address host port := by
    obtain ⟨c, t, rfl, hc, -, -⟩ := hhost
    have hlast : (address (c :: t) port).getLast (by simp [address]) = port.getLast hne := by
      simp [address, hne]
    have hdrop : (address (c :: t) port).dropWhile isSpace = address (c :: t) port :=
      dropWhile_cons_of_neg (by simp [hc])
    rw [trim, hdrop, rdropWhile_eq_self_iff]
    intro _
    rw [hlast, not_space_of_digit (h _ (getLast_mem hne))]
    simp
  obtain ⟨c, t, rfl, hc, hb, ht⟩ := hhost
  have hcolon := colon_notMem_of_digits h
  have hbracket : findEndBracket (address (c :: t) port) = .ok 0 := by
    have hcount : (address (c :: t) port).count ':' = (if c = ':' then 1 else 0) + 1 := by
      simp [address, count_cons, count_eq_zero_of_not_mem ht, count_eq_zero_of_not_mem hcolon, Nat.add_comm]
    unfold findEndBracket
    rw [if_neg (by simpa [address] using hb), hcount]
    split_ifs <;> first | rfl | omega
  have hfind : find (address (c :: t) port) ':' 1 = some (1 + t.length) := find_of_cut (v := port) rfl ht
  rw [splitSpecification, if_neg (Nat.not_lt.2 hlen), htrim, if_neg (by simp [address]), hbracket, Except.bind, splitEndpoint,
    hfind]
  simp [address, Nat.add_comm 1, portAndRemainder_digits h]

/-! ## What is split off a text -/

theorem length_portAndRemainder_le : (portAndRemainder s).1.length ≤ s.length := by
  unfold portAndRemainder
  split
  · exact length_take_le' _ _
  · split
    · exact le_rfl
    · exact length_take_le' _ _

theorem findEndBracket_eq_zero (h : findEndBracket s = .ok i) (hs : s.head? ≠ some '[') : i = 0 := by
  unfold findEndBracket at h
  rw [if_neg hs] at h
  split_ifs at h
  cases h
  rfl

theorem findEndBracket_ne_zero (h : findEndBracket s = .ok i) (hs : s.head? = some '[') : i ≠ 0 := by
  unfold findEndBracket at h
  rw [if_pos hs] at h
  split at h
  · cases h
  case h_2 endBracket hfind =>
    cases h
    obtain ⟨u, v, hcut, -, rfl⟩ := cut_of_find hfind
    intro hz
    obtain rfl : u = [] := length_eq_zero_iff.1 (by omega)
    rw [drop_zero] at hcut
    simp [hcut] at hs

theorem splitSpecification_ok {r : List Char × List Char × List Char} (h : splitSpecification s = .ok r) :
    (address r.1 r.2.1).length ≤ maxP2pAddressLength ∧ ((trim s).head? ≠ some '[' → PlainHost r.1) ∧
      ((trim s).head? = some '[' → (address r.1 r.2.1).length < s.length) := by
  unfold splitSpecification at h
  split_ifs at h with hlen hempty
  have htrim := length_trim_le (s := s)
  cases hb : findEndBracket (trim s) with
  | error text =>
    rw [hb] at h
    cases h
  | ok endBracket =>
    rw [hb, Except.bind, splitEndpoint] at h
    split at h
    · cases h
    case h_2 colon hcolon =>
      obtain ⟨u, v, hcut, hu, rfl⟩ := cut_of_find hcolon
      split at h
      · cases h
      case isFalse hadjacent =>
        cases h
        have hsize := congrArg List.length hcut
        have hport := length_portAndRemainder_le (s := (trim s).drop (endBracket + 1 + u.length + 1))
        refine ⟨?_, fun hs => ?_, fun hs => ?_⟩
        · simp only [address, length_append, length_cons, length_drop] at *
          split_ifs <;> simp only [length_take] <;> omega
        · obtain rfl := findEndBracket_eq_zero hb hs
          cases he : trim s with
          | nil => simp [he] at hempty
          | cons c e =>
            have hc : isSpace c = false := head_trim (by rw [he]; rfl)
            rw [he] at hcut hs
            refine ⟨c, u, ?_, hc, by simpa using hs, hu⟩
            obtain rfl : e = u ++ ':' :: v := hcut
            simp [Nat.add_comm]
        · -- the brackets are read and not written
          have hb := findEndBracket_ne_zero hb hs
          simp only [address, length_append, length_cons, length_drop, if_pos hb, length_take] at *
          omega

theorem splitSpecification_of_split {type : List Char} (h : splitHostPortType s = (host, port, type)) (hhost : host ≠ []) :
    port ≠ [] ∧ ∃ remainder, splitSpecification s = .ok (host, port, remainder) := by
  unfold splitHostPortType splitHostPortRemainder at h
  cases hs : splitSpecification s with
  | error e =>
    rw [hs] at h
    cases h
    exact absurd rfl hhost
  | ok r =>
    rw [hs] at h
    simp only at h
    split at h
    · cases h
      exact absurd rfl hhost
    case isFalse hempty =>
      cases h
      exact ⟨fun hport => hempty (by simp [hport]), r.2.2, rfl⟩

/-- **Endpoint addresses.** Where a text splits into a host and a port of digits, the address of the two splits into them again
exactly if the text is not in brackets or its host is plain. -/
theorem address_round_trip_iff (text host port type : List Char) (h : splitHostPortType text = (host, port, type))
    (hhost : host ≠ []) (hport : ∀ c ∈ port, c.isDigit = true) :
    splitHostPortType (address host port) = (host, port, []) ↔ ((trim text).head? = some '[' → PlainHost host) := by
  obtain ⟨hne, remainder, hs⟩ := splitSpecification_of_split h hhost
  obtain ⟨hlen, hbare, -⟩ := splitSpecification_ok hs
  constructor
  · intro hround _
    obtain ⟨-, remainder', hs'⟩ := splitSpecification_of_split hround hhost
    obtain ⟨-, hbare', hbracket⟩ := splitSpecification_ok hs'
    exact hbare' fun hs => Nat.lt_irrefl _ (hbracket hs)
  · intro hplain
    have hp : PlainHost host := (em _).elim hplain hbare
    simp [splitHostPortType, splitHostPortRemainder, splitSpecification_address hp hne hport hlen, hhost, hne]

theorem address_round_trip_iff_sample : splitHostPortType "[host]:9876:trx".toList = ("host".toList, "9876".toList, "trx".toList) ∧
    splitHostPortType (address "host".toList "9876".toList) = ("host".toList, "9876".toList, []) := by
  have h : splitHostPortType "[host]:9876:trx".toList = ("host".toList, "9876".toList, "trx".toList) := by decide +kernel
  have hport : "9876".toList.all (·.isDigit) = true := by decide +kernel
  refine ⟨h, (address_round_trip_iff _ _ _ _ h (by decide) (all_eq_true.1 hport)).2 fun _ => ?_⟩
  exact ⟨'h', "ost".toList, by decide +kernel, by decide, by decide, by decide +kernel⟩

/-- **The address of an IPv6 host is read as another host and port.** -/
theorem ipv6_address_lost : splitHostPortType "[::1]:8080".toList = ("::1".toList, "8080".toList, []) ∧
    splitHostPortType (address "::1".toList "8080".toList) = (":".toList, "1".toList, []) := by
  decide +kernel

end Endpoint
end TheChannel
