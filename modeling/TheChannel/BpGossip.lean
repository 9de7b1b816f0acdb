import TheChannel.Contract
/-!
# BpGossip — signed addresses of block producers

`bp_connection_manager` keeps, per producer, the addresses that other nodes sent, each signed with the producer's on-chain peer
key. A message is checked and applied in two critical sections (`receive`, `update`), so that other messages may come between
them. The index has two unique keys: producer with both addresses, and signature.

A signature that the index has is not checked again, whatever content it now comes with. Where such entries do verify, all
versions are 1 and the node's own entries are not older than what they replace, every entry was verified and none is lost
without a reason (`run_authentic`); without the first of these a forged entry gets in (`forged_entry`).
-/
namespace TheChannel
open List Option

theorem exists_last_change {σ α : Type} {f : σ → α → σ} {P : σ → Prop} {s : σ} (h : P s) (l : List α) :
    ¬ P (l.foldl f s) → ∃ before a after, l = before ++ a :: after ∧ P (before.foldl f s) ∧
      ∀ mid rest, after = mid ++ rest → ¬ P ((before ++ a :: mid).foldl f s) := by
  induction l using List.reverseRecOn with
  | nil => exact fun hnot => absurd h hnot
  | append_singleton l a ih =>
    intro hnot
    by_cases hl : P (l.foldl f s)
    · refine ⟨l, a, [], rfl, hl, fun mid rest hmid => ?_⟩
      obtain ⟨rfl, -⟩ := append_eq_nil_iff.1 hmid.symm
      exact hnot
    · obtain ⟨before, b, after, rfl, hb, hs⟩ := ih hl
      refine ⟨before, b, after ++ [a], by simp, hb, fun mid rest hmid => ?_⟩
      rcases eq_nil_or_concat rest with rfl | ⟨rest, c, rfl⟩
      · rw [append_nil] at hmid
        rw [← hmid]
        simpa using hnot
      · rw [concat_eq_append, ← append_assoc] at hmid
        exact hs mid rest (append_inj' hmid rfl).1

structure BpPeerInfo where
  serverEndpoint : List UInt8
  outboundIpAddress : List UInt8
  expiration : UInt32
  deriving DecidableEq

structure BpPeer (τ : Type) where
  version : Nat
  producer : AccountName
  bpPeerInfo : List τ
  deriving DecidableEq

structure SignedBpPeer (τ Sig : Type) extends BpPeer τ where
  sig : Sig
  deriving DecidableEq

structure CachedPeer (τ Sig : Type) extends SignedBpPeer τ Sig where
  info : BpPeerInfo
  deriving DecidableEq

/-- What the node uses of `fc` and of its signature provider; `signCompact` has no value where the source has the empty
signature. -/
structure GossipHost (τ Sig Key Digest : Type) where
  digest : BpPeer τ → Digest
  recover : Sig → Digest → Option Key
  isWebauthn : Sig → Bool
  signCompact : Key → Digest → Option Sig
  codec : Codec τ BpPeerInfo
  validEndpoint : List UInt8 → Bool
  sign_recovers : ∀ key d sig, signCompact key d = some sig → recover sig d = some key

/-- `fc::raw::unpack` of a whole vector; what follows the value is ignored. -/
def GossipHost.unpack {τ Sig Key Digest : Type} (host : GossipHost τ Sig Key Digest) (raw : List τ) : Option BpPeerInfo :=
  (host.codec.unpack raw).map Prod.fst

theorem GossipHost.unpack_pack {τ Sig Key Digest : Type} (host : GossipHost τ Sig Key Digest) (info : BpPeerInfo) :
    host.unpack (host.codec.pack info) = some info := by
  have h := host.codec.roundTrip info []
  rw [append_nil] at h
  simp [GossipHost.unpack, h]

structure GossipEnv (Key : Type) where
  peerKey : AccountName → Option Key
  headBlockTime : UInt32

abbrev GossipConfig := List (AccountName × List (List UInt8 × List UInt8))

def maxBpGossipPeersPerProducer : Nat := 8

def bpGossipPeerExpiration : UInt32 := 7200

def bpGossipPeerExpirationVariance : UInt32 := 9000

namespace CachedPeer
variable {τ Sig : Type}

def key (p : CachedPeer τ Sig) : AccountName × List UInt8 × List UInt8 :=
  (p.producer, p.info.serverEndpoint, p.info.outboundIpAddress)

def before (p q : CachedPeer τ Sig) : Bool :=
  decide (p.producer < q.producer) ||
    (p.producer == q.producer && (List.lex p.info.serverEndpoint q.info.serverEndpoint (· < ·) ||
      (p.info.serverEndpoint == q.info.serverEndpoint &&
        List.lex p.info.outboundIpAddress q.info.outboundIpAddress (· < ·))))

def Apart (p q : CachedPeer τ Sig) : Prop := p.key ≠ q.key ∧ p.sig ≠ q.sig

theorem Apart.symm {p q : CachedPeer τ Sig} (h : Apart p q) : Apart q p := ⟨h.1.symm, h.2.symm⟩

instance : Std.Symm (@Apart τ Sig) := ⟨fun _ _ => Apart.symm⟩

/-- What `modify` writes into an entry: everything but the version and the producer. -/
def rewrite (p q : CachedPeer τ Sig) : CachedPeer τ Sig :=
  { p with bpPeerInfo := q.bpPeerInfo, info := q.info, sig := q.sig }

end CachedPeer

/-! ## The index -/

/-- `gossip_bps_index_container_t`, in the order of `by_producer`. -/
structure GossipIndex (τ Sig : Type) where
  peers : List (CachedPeer τ Sig)
  distinct : peers.Pairwise CachedPeer.Apart

namespace GossipIndex
variable {τ Sig : Type} [DecidableEq Sig] (index : GossipIndex τ Sig)

def empty : GossipIndex τ Sig := ⟨[], .nil⟩

def insertByProducer (p : CachedPeer τ Sig) : List (CachedPeer τ Sig) → List (CachedPeer τ Sig)
  | [] => [p]
  | q :: rest => if p.before q then p :: q :: rest else q :: insertByProducer p rest

omit [DecidableEq Sig] in
theorem insertByProducer_perm (p : CachedPeer τ Sig) : ∀ l, (insertByProducer p l).Perm (p :: l)
  | [] => .refl _
  | q :: rest => by
    unfold insertByProducer
    split
    · exact .refl _
    · exact ((insertByProducer_perm p rest).cons q).trans (.swap p q rest)

def eraseIf (b : CachedPeer τ Sig → Bool) : GossipIndex τ Sig := ⟨index.peers.filter (!b ·), index.distinct.filter _⟩

def hasSig (sig : Sig) : Bool := index.peers.any (·.sig == sig)

def find (key : AccountName × List UInt8 × List UInt8) : Option (CachedPeer τ Sig) := index.peers.find? (·.key == key)

def insert (p : CachedPeer τ Sig) : GossipIndex τ Sig :=
  if h : ∀ q ∈ index.peers, p.key ≠ q.key ∧ p.sig ≠ q.sig then
    ⟨insertByProducer p index.peers,
      ((insertByProducer_perm p index.peers).pairwise_iff CachedPeer.Apart.symm).2 (pairwise_cons.2 ⟨h, index.distinct⟩)⟩
  else index

def rewriteAll (q : CachedPeer τ Sig) : List (CachedPeer τ Sig) :=
  index.peers.map (fun p => if p.key = q.key then p.rewrite q else p)

omit [DecidableEq Sig] in
theorem rewrite_key {p q : CachedPeer τ Sig} (h : p.key = q.key) : (p.rewrite q).key = p.key := by
  simp only [CachedPeer.key, Prod.mk.injEq] at h
  simp [CachedPeer.key, CachedPeer.rewrite, h.2.1, h.2.2]

omit [DecidableEq Sig] in
theorem rewriteAll_distinct (q : CachedPeer τ Sig) (h : ∀ p ∈ index.peers, p.key ≠ q.key → p.sig ≠ q.sig) :
    (index.rewriteAll q).Pairwise CachedPeer.Apart := by
  refine pairwise_map.2 (index.distinct.imp_of_mem ?_)
  intro a b ha hb hab
  by_cases hkey : a.key = q.key
  · have hot : b.key ≠ q.key := fun hb => hab.1 (hkey.trans hb.symm)
    rw [if_pos hkey, if_neg hot]
    exact ⟨fun hk => hab.1 ((rewrite_key hkey).symm.trans hk), (h b hb hot).symm⟩
  · rw [if_neg hkey]
    by_cases hkey' : b.key = q.key
    · rw [if_pos hkey']
      exact ⟨fun hk => hab.1 (hk.trans (rewrite_key hkey')), h a ha hkey⟩
    · rw [if_neg hkey']
      exact hab

/-- `modify` of the entry with the key of `q`: when the new signature is taken, the container erases the entry. -/
def modify (q : CachedPeer τ Sig) : GossipIndex τ Sig :=
  if h : ∀ p ∈ index.peers, p.key ≠ q.key → p.sig ≠ q.sig then ⟨index.rewriteAll q, index.rewriteAll_distinct q h⟩
  else index.eraseIf (·.key == q.key)

def ofProducer (producer : AccountName) : List (CachedPeer τ Sig) := index.peers.filter (·.producer == producer)

def minExpiration : CachedPeer τ Sig → List (CachedPeer τ Sig) → CachedPeer τ Sig
  | p, [] => p
  | p, q :: rest => minExpiration (if q.info.expiration < p.info.expiration then q else p) rest

def makeRoom (producer : AccountName) : GossipIndex τ Sig :=
  match index.ofProducer producer with
  | [] => index
  | p :: rest =>
    if maxBpGossipPeersPerProducer ≤ rest.length + 1 then index.eraseIf (·.key == (minExpiration p rest).key) else index

def applyPeer (q : CachedPeer τ Sig) : GossipIndex τ Sig :=
  match index.find q.key with
  | some p => if p.sig ≠ q.sig ∧ p.info.expiration ≤ q.info.expiration then index.modify q else index
  | none => (index.makeRoom q.producer).insert q

def updateGossipBps (peers : List (CachedPeer τ Sig)) : GossipIndex τ Sig := peers.foldl applyPeer index

def putOwn (q : CachedPeer τ Sig) : GossipIndex τ Sig :=
  match index.find q.key with
  | some _ => index.modify q
  | none => index.insert q

def expire (headBlockTime : UInt32) : GossipIndex τ Sig := index.eraseIf (fun p => decide (p.info.expiration ≤ headBlockTime))

end GossipIndex

/-! ## Messages -/

inductive KeyVerdict
  | valid
  | mismatch
  | malformed
  deriving DecidableEq

namespace GossipHost
variable {τ Sig Key Digest : Type} [DecidableEq Sig] [DecidableEq Key] (host : GossipHost τ Sig Key Digest)

def follows (prev : CachedPeer τ Sig) (count : Nat) (p : CachedPeer τ Sig) : Option Nat :=
  if prev.producer = p.producer then
    if maxBpGossipPeersPerProducer < count + 1 then none
    else if prev.info.serverEndpoint = p.info.serverEndpoint then none
    else some (count + 1)
  else if p.producer < prev.producer then none
  else some 0

def cache (p : SignedBpPeer τ Sig) : Option (CachedPeer τ Sig) :=
  if p.producer = 0 then none
  else match host.unpack p.bpPeerInfo with
    | none => none
    | some info => if host.validEndpoint info.serverEndpoint then some { p with info := info } else none

def cacheAll : Option (CachedPeer τ Sig) → Nat → List (SignedBpPeer τ Sig) → Option (List (CachedPeer τ Sig))
  | _, _, [] => some []
  | prev, count, p :: rest =>
    (host.cache p).bind fun c =>
    (match prev with
      | none => some count
      | some prev => follows prev count c).bind fun count =>
    (cacheAll (some c) count rest).map (c :: ·)

/-- `is_peer_key_valid`; a malformed signature makes the whole message invalid. -/
def isPeerKeyValid (env : GossipEnv Key) (p : SignedBpPeer τ Sig) : KeyVerdict :=
  if host.isWebauthn p.sig then .malformed
  else match env.peerKey p.producer with
    | none => .mismatch
    | some key => match host.recover p.sig (host.digest p.toBpPeer) with
      | none => .malformed
      | some pk => if pk = key then .valid else .mismatch

/-- The second loop of `validate_gossip_bp_peers_message`, over entries with or without their info. -/
def sift {α : Type} (env : GossipEnv Key) (index : GossipIndex τ Sig) (signed : α → SignedBpPeer τ Sig) (fresh : α → Bool) :
    List α → Option (List α)
  | [] => some []
  | p :: rest =>
    -- a known signature: "we already have it, already verified"
    if index.hasSig (signed p).sig then (sift env index signed fresh rest).map (p :: ·)
    else match host.isPeerKeyValid env (signed p) with
      | .malformed => none
      | .mismatch => sift env index signed fresh rest
      | .valid =>
        if fresh p then (sift env index signed fresh rest).map (p :: ·) else sift env index signed fresh rest

def isExpirationValid (env : GossipEnv Key) (p : CachedPeer τ Sig) : Bool :=
  decide (env.headBlockTime < p.info.expiration ∧ p.info.expiration < env.headBlockTime + bpGossipPeerExpirationVariance)

def isInitial : List (SignedBpPeer τ Sig) → Bool
  | [p] => p.bpPeerInfo.isEmpty
  | _ => false

/-- `validate_gossip_bp_peers_message`: the entries that are left, those of a first message without their info. -/
def validateGossipBpPeersMessage (env : GossipEnv Key) (index : GossipIndex τ Sig) (msg : List (SignedBpPeer τ Sig)) :
    Option (List (SignedBpPeer τ Sig) ⊕ List (CachedPeer τ Sig)) :=
  if msg.isEmpty then none
  else if isInitial msg then (host.sift env index id (fun _ => true) msg).map .inl
  else (host.cacheAll none 0 msg).bind fun peers =>
    (host.sift env index CachedPeer.toSignedBpPeer (isExpirationValid env) peers).map .inr

end GossipHost

/-! ## The node -/

/-- The node: the index, whether it has signed its own first message, and the messages that passed validation and wait for
the lock, each with the chain it was checked against. -/
structure GossipNode (τ Sig Key : Type) where
  index : GossipIndex τ Sig
  initialized : Bool
  waiting : List (GossipEnv Key × List (CachedPeer τ Sig))

inductive GossipEvent (τ Sig Key : Type)
  | receive (env : GossipEnv Key) (msg : List (SignedBpPeer τ Sig))
  | update (i : Nat)
  | own (env : GossipEnv Key)
  | expire (env : GossipEnv Key)

namespace GossipNode
variable {τ Sig Key Digest : Type} [DecidableEq Sig] [DecidableEq Key] (host : GossipHost τ Sig Key Digest)
  (config : GossipConfig)

def start : GossipNode τ Sig Key := ⟨.empty, false, []⟩

/-- `handle_message` up to the update. -/
def receive (s : GossipNode τ Sig Key) (env : GossipEnv Key) (msg : List (SignedBpPeer τ Sig)) : GossipNode τ Sig Key :=
  if config.isEmpty || !s.initialized then s
  else match host.validateGossipBpPeersMessage env s.index msg with
    | some (.inr peers) => { s with waiting := s.waiting ++ [(env, peers)] }
    | _ => s

def update (s : GossipNode τ Sig Key) (i : Nat) : GossipNode τ Sig Key :=
  match s.waiting[i]? with
  | none => s
  | some w => { s with index := s.index.updateGossipBps w.2, waiting := s.waiting.eraseIdx i }

def ownJobs (env : GossipEnv Key) : List (AccountName × Key × List UInt8 × List UInt8) :=
  config.flatMap fun a =>
    match env.peerKey a.1 with
    | some key => a.2.map fun le => (a.1, key, le)
    | none => []

def ownInfo (env : GossipEnv Key) (job : AccountName × Key × List UInt8 × List UInt8) : BpPeerInfo :=
  ⟨job.2.2.1, job.2.2.2, env.headBlockTime + bpGossipPeerExpiration⟩

def ownPeer (env : GossipEnv Key) (job : AccountName × Key × List UInt8 × List UInt8) : BpPeer τ :=
  ⟨1, job.1, host.codec.pack (ownInfo env job)⟩

/-- The loop of `update_bp_producer_peers`. The first round signs the first message too; a missing private key throws, and
what was written stays. -/
def ownLoop (env : GossipEnv Key) : Bool → List (AccountName × Key × List UInt8 × List UInt8) → GossipNode τ Sig Key →
    GossipNode τ Sig Key
  | _, [], s => s
  | initialUpdated, job :: jobs, s =>
    if !initialUpdated && (host.signCompact job.2.1 (host.digest ⟨1, job.1, []⟩)).isNone then s
    else match host.signCompact job.2.1 (host.digest (ownPeer host env job)) with
      | none => { s with initialized := true }
      | some sig => ownLoop env true jobs
          { s with index := s.index.putOwn ⟨⟨ownPeer host env job, sig⟩, ownInfo env job⟩, initialized := true }

def own (s : GossipNode τ Sig Key) (env : GossipEnv Key) : GossipNode τ Sig Key :=
  ownLoop host env false (ownJobs config env) s

def expire (s : GossipNode τ Sig Key) (env : GossipEnv Key) : GossipNode τ Sig Key :=
  if config.isEmpty then s else { s with index := s.index.expire env.headBlockTime }

def step (s : GossipNode τ Sig Key) : GossipEvent τ Sig Key → GossipNode τ Sig Key
  | .receive env msg => s.receive host config env msg
  | .update i => s.update i
  | .own env => s.own host config env
  | .expire env => s.expire config env

def run (events : List (GossipEvent τ Sig Key)) : GossipNode τ Sig Key := events.foldl (step host config) start

end GossipNode

/-! ## What an operation of the index gains and loses -/

namespace GossipIndex
variable {τ Sig : Type} {index : GossipIndex τ Sig} {p q : CachedPeer τ Sig}

theorem mem_eraseIf {b : CachedPeer τ Sig → Bool} : p ∈ (index.eraseIf b).peers ↔ p ∈ index.peers ∧ b p = false := by
  simp [eraseIf]

theorem rewrite_eq (hkey : p.key = q.key) (hver : p.version = q.version) : p.rewrite q = q := by
  have hp : p.producer = q.producer := congrArg Prod.fst hkey
  obtain ⟨⟨⟨_, _, _⟩, _⟩, _⟩ := p
  obtain ⟨⟨⟨_, _, _⟩, _⟩, _⟩ := q
  cases hp
  cases hver
  rfl

theorem eq_of_key (hp : p ∈ index.peers) (hq : q ∈ index.peers) (hkey : p.key = q.key) : p = q := by
  by_contra hne
  exact (index.distinct.forall hp hq hne).1 hkey

theorem find_some (h : index.find q.key = some p) : p ∈ index.peers ∧ p.key = q.key :=
  ⟨mem_of_find?_eq_some h, by simpa using find?_some h⟩

theorem minExpiration_mem : ∀ (p : CachedPeer τ Sig) (l : List (CachedPeer τ Sig)), minExpiration p l ∈ p :: l
  | p, [] => mem_cons_self
  | p, q :: rest => by
    unfold minExpiration
    split
    · exact mem_cons_of_mem p (minExpiration_mem q rest)
    · rcases mem_cons.1 (minExpiration_mem p rest) with h | h
      · exact mem_cons.2 (.inl h)
      · exact mem_cons_of_mem p (mem_cons_of_mem q h)

theorem minExpiration_le : ∀ (p : CachedPeer τ Sig) (l : List (CachedPeer τ Sig)), ∀ r ∈ p :: l,
    (minExpiration p l).info.expiration ≤ r.info.expiration
  | p, [], r, hr => by
    rw [mem_singleton.1 hr]
    exact UInt32.le_refl _
  | p, q :: rest, r, hr => by
    unfold minExpiration
    split
    case isTrue hlt =>
      have hmin := minExpiration_le q rest
      rcases mem_cons.1 hr with rfl | hr
      · exact UInt32.le_trans (hmin q mem_cons_self) (UInt32.le_of_lt hlt)
      · exact hmin r hr
    case isFalse hlt =>
      have hmin := minExpiration_le p rest
      rcases mem_cons.1 hr with rfl | hr
      · exact hmin r mem_cons_self
      · rcases mem_cons.1 hr with rfl | hr
        · exact UInt32.le_trans (hmin p mem_cons_self) (UInt32.not_lt.1 hlt)
        · exact hmin r (mem_cons_of_mem p hr)

theorem mem_foldl {f : GossipIndex τ Sig → CachedPeer τ Sig → GossipIndex τ Sig}
    (hf : ∀ {index : GossipIndex τ Sig} {q p}, (∀ r ∈ index.peers, r.version = q.version) → p ∈ (f index q).peers →
      p ∈ index.peers ∨ p = q) :
    ∀ {l : List (CachedPeer τ Sig)} {index : GossipIndex τ Sig}, (∀ r ∈ index.peers, r.version = 1) → (∀ q ∈ l, q.version = 1) →
      p ∈ (l.foldl f index).peers → p ∈ index.peers ∨ p ∈ l
  | [], _, _, _, h => .inl h
  | q :: l, index, hi, hl, h => by
    have hq : q.version = 1 := hl q mem_cons_self
    have hver : ∀ r ∈ index.peers, r.version = q.version := fun r hr => (hi r hr).trans hq.symm
    have hn : ∀ r ∈ (f index q).peers, r.version = 1 := by
      intro r hr
      rcases hf hver hr with hr | rfl
      · exact hi r hr
      · exact hq
    rcases mem_foldl hf hn (fun r hr => hl r (mem_cons_of_mem q hr)) h with h | h
    · rcases hf hver h with h | rfl
      · exact .inl h
      · exact .inr mem_cons_self
    · exact .inr (mem_cons_of_mem q h)

/-- The entry `p` makes room for `q`: its producer has as many entries as it may have, and none that expires earlier. -/
structure Crowded (index : GossipIndex τ Sig) (q p : CachedPeer τ Sig) : Prop where
  producer : q.producer = p.producer
  full : maxBpGossipPeersPerProducer ≤ (index.ofProducer p.producer).length
  first : ∀ r ∈ index.ofProducer p.producer, p.info.expiration ≤ r.info.expiration

theorem mem_of_mem_makeRoom {producer : AccountName} (h : p ∈ (index.makeRoom producer).peers) : p ∈ index.peers := by
  unfold makeRoom at h
  split at h
  · exact h
  · split at h
    · exact (mem_eraseIf.1 h).1
    · exact h

theorem crowded_of_not_mem_makeRoom (hp : p ∈ index.peers) (h : p ∉ (index.makeRoom q.producer).peers) :
    Crowded index q p := by
  unfold makeRoom at h
  split at h
  · exact absurd hp h
  case h_2 r rest hr =>
    split at h
    case isFalse => exact absurd hp h
    case isTrue hf =>
      have hmin : minExpiration r rest ∈ index.ofProducer q.producer := hr ▸ minExpiration_mem r rest
      obtain ⟨hmem, hpr⟩ := mem_filter.1 hmin
      -- the entry that goes is the one with the least expiration
      have hkey : p.key = (minExpiration r rest).key := by
        by_contra hne
        exact h (mem_eraseIf.2 ⟨hp, by simpa using hne⟩)
      obtain rfl := eq_of_key hp hmem hkey
      rw [beq_iff_eq] at hpr
      refine ⟨hpr.symm, ?_, ?_⟩
      · rw [hpr, hr]
        exact hf
      · rw [hpr, hr]
        exact minExpiration_le r rest

variable [DecidableEq Sig]

theorem mem_insert (h : p ∈ (index.insert q).peers) : p ∈ index.peers ∨ p = q := by
  unfold insert at h
  split at h
  · exact (mem_cons.1 ((insertByProducer_perm q index.peers).mem_iff.1 h)).symm
  · exact .inl h

theorem mem_insert_of_mem (h : p ∈ index.peers) : p ∈ (index.insert q).peers := by
  unfold insert
  split
  · exact (insertByProducer_perm q index.peers).mem_iff.2 (mem_cons_of_mem q h)
  · exact h

theorem mem_modify (hver : ∀ r ∈ index.peers, r.version = q.version) (h : p ∈ (index.modify q).peers) :
    p ∈ index.peers ∨ p = q := by
  unfold modify at h
  split at h
  · obtain ⟨r, hr, rfl⟩ := mem_map.1 h
    by_cases hkey : r.key = q.key
    · rw [if_pos hkey]
      exact .inr (rewrite_eq hkey (hver r hr))
    · rw [if_neg hkey]
      exact .inl hr
  · exact .inl (mem_eraseIf.1 h).1

theorem key_eq_of_not_mem_modify (hp : p ∈ index.peers) (h : p ∉ (index.modify q).peers) : q.key = p.key := by
  by_contra hkey
  apply h
  unfold modify
  split
  · exact mem_map.2 ⟨p, hp, if_neg (Ne.symm hkey)⟩
  · exact mem_eraseIf.2 ⟨hp, by simpa using Ne.symm hkey⟩

theorem mem_applyPeer (hver : ∀ r ∈ index.peers, r.version = q.version) (h : p ∈ (index.applyPeer q).peers) :
    p ∈ index.peers ∨ p = q := by
  unfold applyPeer at h
  split at h
  · split at h
    · exact mem_modify hver h
    · exact .inl h
  · exact (mem_insert h).imp_left mem_of_mem_makeRoom

theorem lost_of_applyPeer (hp : p ∈ index.peers) (h : p ∉ (index.applyPeer q).peers) :
    (q.key = p.key ∧ p.info.expiration ≤ q.info.expiration) ∨ Crowded index q p := by
  unfold applyPeer at h
  split at h
  case h_1 r hf =>
    split at h
    case isTrue hnew =>
      have hkey := key_eq_of_not_mem_modify hp h
      obtain ⟨hr, hrk⟩ := find_some hf
      obtain rfl := eq_of_key hp hr (hkey.symm.trans hrk.symm)
      exact .inl ⟨hkey, hnew.2⟩
    case isFalse => exact absurd hp h
  case h_2 =>
    exact .inr (crowded_of_not_mem_makeRoom hp (fun hro => h (mem_insert_of_mem hro)))

theorem mem_putOwn (hver : ∀ r ∈ index.peers, r.version = q.version) (h : p ∈ (index.putOwn q).peers) :
    p ∈ index.peers ∨ p = q := by
  unfold putOwn at h
  split at h
  · exact mem_modify hver h
  · exact mem_insert h

theorem lost_of_putOwn (hp : p ∈ index.peers) (h : p ∉ (index.putOwn q).peers) : q.key = p.key := by
  unfold putOwn at h
  split at h
  · exact key_eq_of_not_mem_modify hp h
  · exact absurd (mem_insert_of_mem hp) h

end GossipIndex

/-! ## What validation accepts -/

namespace GossipHost
variable {τ Sig Key Digest : Type} {host : GossipHost τ Sig Key Digest} {env : GossipEnv Key} {p : SignedBpPeer τ Sig}
  {index : GossipIndex τ Sig}

def Signed (host : GossipHost τ Sig Key Digest) (env : GossipEnv Key) (p : SignedBpPeer τ Sig) : Prop :=
  ∃ key, env.peerKey p.producer = some key ∧ host.recover p.sig (host.digest p.toBpPeer) = some key

def Verifies (host : GossipHost τ Sig Key Digest) (env : GossipEnv Key) (p : CachedPeer τ Sig) : Prop :=
  Signed host env p.toSignedBpPeer ∧ host.unpack p.bpPeerInfo = some p.info

theorem cache_some {c : CachedPeer τ Sig} (h : host.cache p = some c) :
    c.toSignedBpPeer = p ∧ host.unpack c.bpPeerInfo = some c.info := by
  unfold cache at h
  split at h
  · cases h
  · split at h
    · cases h
    case h_2 info hi =>
      split at h
      · cases h
        exact ⟨rfl, hi⟩
      · cases h

theorem mem_cacheAll : ∀ {prev} {count : Nat} {msg}
    {peers}, host.cacheAll prev count msg = some peers →
    ∀ c ∈ peers, c.toSignedBpPeer ∈ msg ∧ host.unpack c.bpPeerInfo = some c.info
  | _, _, [], _, h, c, hc => by
    cases h
    cases hc
  | prev, count, p :: rest, peers, h, c, hc => by
    obtain ⟨c1, hca, h⟩ := bind_eq_some_iff.1 h
    obtain ⟨count1, -, h⟩ := bind_eq_some_iff.1 h
    obtain ⟨peers1, hr, rfl⟩ := map_eq_some_iff.1 h
    rcases mem_cons.1 hc with rfl | hc
    · obtain ⟨hp, hi⟩ := cache_some hca
      exact ⟨hp ▸ mem_cons_self, hi⟩
    · obtain ⟨hmem, hi⟩ := mem_cacheAll hr c hc
      exact ⟨mem_cons_of_mem p hmem, hi⟩

variable [DecidableEq Key]

theorem signed_of_valid (h : host.isPeerKeyValid env p = .valid) : Signed host env p := by
  unfold isPeerKeyValid at h
  split at h
  · cases h
  · split at h
    · cases h
    case h_2 key hkey =>
      split at h
      · cases h
      case h_2 pk hpk =>
        split at h
        case isTrue heq => exact ⟨key, hkey, heq ▸ hpk⟩
        case isFalse => cases h

variable [DecidableEq Sig]

theorem mem_sift {α : Type} {signed : α → SignedBpPeer τ Sig} {fresh : α → Bool} :
    ∀ {l out}, host.sift env index signed fresh l = some out → ∀ p ∈ out,
      p ∈ l ∧ (index.hasSig (signed p).sig = true ∨ Signed host env (signed p))
  | [], out, h, p, hp => by
    cases h
    cases hp
  | q :: rest, out, h, p, hp => by
    -- an entry that stays in front of what is left of the rest
    have hk : (host.sift env index signed fresh rest).map (q :: ·) = some out →
        (index.hasSig (signed q).sig = true ∨ Signed host env (signed q)) →
        p ∈ q :: rest ∧ (index.hasSig (signed p).sig = true ∨ Signed host env (signed p)) := by
      intro h hq
      obtain ⟨out1, hr, rfl⟩ := map_eq_some_iff.1 h
      rcases mem_cons.1 hp with rfl | hp
      · exact ⟨mem_cons_self, hq⟩
      · exact (mem_sift hr p hp).imp_left (mem_cons_of_mem q)
    unfold sift at h
    split at h
    case isTrue hkn => exact hk h (.inl hkn)
    case isFalse =>
      split at h
      · cases h
      · exact (mem_sift h p hp).imp_left (mem_cons_of_mem q)
      case h_3 hval =>
        split at h
        · exact hk h (.inr (signed_of_valid hval))
        · exact (mem_sift h p hp).imp_left (mem_cons_of_mem q)

theorem mem_validated {msg : List (SignedBpPeer τ Sig)} {peers : List (CachedPeer τ Sig)}
    (h : host.validateGossipBpPeersMessage env index msg = some (.inr peers)) {p : CachedPeer τ Sig} (hp : p ∈ peers) :
    p.toSignedBpPeer ∈ msg ∧ host.unpack p.bpPeerInfo = some p.info ∧
      (index.hasSig p.sig = true ∨ Signed host env p.toSignedBpPeer) := by
  unfold validateGossipBpPeersMessage at h
  split at h
  · cases h
  · split at h
    · obtain ⟨out, -, h⟩ := map_eq_some_iff.1 h
      cases h
    · obtain ⟨cached, hca, h⟩ := bind_eq_some_iff.1 h
      obtain ⟨out, hout, h⟩ := map_eq_some_iff.1 h
      cases h
      obtain ⟨hmem, hsig⟩ := mem_sift hout p hp
      obtain ⟨hmsg, hi⟩ := mem_cacheAll hca p hmem
      exact ⟨hmsg, hi, hsig⟩

end GossipHost

/-! ## Runs -/

namespace GossipNode
open GossipHost (Signed Verifies)

variable {τ Sig Key Digest : Type} [DecidableEq Sig] [DecidableEq Key] (host : GossipHost τ Sig Key Digest)
  (config : GossipConfig) {s : GossipNode τ Sig Key} {env : GossipEnv Key} {p : CachedPeer τ Sig}
  {msg : List (SignedBpPeer τ Sig)} {e : GossipEvent τ Sig Key}

def ownSigned (env : GossipEnv Key) : Bool → List (AccountName × Key × List UInt8 × List UInt8) → List (CachedPeer τ Sig)
  | _, [] => []
  | initialUpdated, job :: jobs =>
    if !initialUpdated && (host.signCompact job.2.1 (host.digest ⟨1, job.1, []⟩)).isNone then []
    else match host.signCompact job.2.1 (host.digest (ownPeer host env job)) with
      | none => []
      | some sig => ⟨⟨ownPeer host env job, sig⟩, ownInfo env job⟩ :: ownSigned env true jobs

/-- The entry `q` replaces `p`: validly signed, for the same producer and addresses, and it expires no earlier. -/
structure Supersedes (env : GossipEnv Key) (q p : CachedPeer τ Sig) : Prop where
  verifies : Verifies host env q
  key : q.key = p.key
  expiration : p.info.expiration ≤ q.info.expiration

def GainedAt (s : GossipNode τ Sig Key) (p : CachedPeer τ Sig) : GossipEvent τ Sig Key → Prop
  | .receive _ _ => False
  | .update i => ∃ w, s.waiting[i]? = some w ∧ p ∈ w.2 ∧ Verifies host w.1 p
  | .own env => p ∈ ownSigned host env false (ownJobs config env) ∧ Verifies host env p
  | .expire _ => False

def LostAt (s : GossipNode τ Sig Key) (p : CachedPeer τ Sig) : GossipEvent τ Sig Key → Prop
  | .receive _ _ => False
  | .update i => ∃ w before q after, s.waiting[i]? = some w ∧ w.2 = before ++ q :: after ∧
      (Supersedes host w.1 q p ∨ GossipIndex.Crowded (s.index.updateGossipBps before) q p)
  | .own env => ∃ q ∈ ownSigned host env false (ownJobs config env), Supersedes host env q p
  | .expire env => p.info.expiration ≤ env.headBlockTime

def Guarded (s : GossipNode τ Sig Key) : GossipEvent τ Sig Key → Prop
  | .receive env msg => ∀ p ∈ msg, p.version = 1 ∧ (s.index.hasSig p.sig = true → Signed host env p)
  | .update _ => True
  | .own env => ∀ q ∈ ownSigned host env false (ownJobs config env), ∀ p ∈ s.index.peers, q.key = p.key →
      p.info.expiration ≤ q.info.expiration
  | .expire _ => True

structure Sound (s : GossipNode τ Sig Key) : Prop where
  versions : ∀ p ∈ s.index.peers, p.version = 1
  waiting : ∀ w ∈ s.waiting, ∀ p ∈ w.2, p.version = 1 ∧ Verifies host w.1 p

variable {host config}

omit [DecidableEq Key] in
theorem ownLoop_waiting : ∀ {initialUpdated : Bool} {jobs}
    {s}, (ownLoop host env initialUpdated jobs s).waiting = s.waiting
  | _, [], _ => rfl
  | initialUpdated, job :: jobs, s => by
    unfold ownLoop
    split
    · rfl
    · split
      · rfl
      · exact ownLoop_waiting

omit [DecidableEq Key] in
theorem ownLoop_index : ∀ {initialUpdated : Bool} {jobs}
    {s},
    (ownLoop host env initialUpdated jobs s).index = (ownSigned host env initialUpdated jobs).foldl GossipIndex.putOwn s.index
  | _, [], _ => rfl
  | initialUpdated, job :: jobs, s => by
    unfold ownLoop ownSigned
    split
    · rfl
    · cases hsig : host.signCompact job.2.1 (host.digest (ownPeer host env job)) with
      | none => rfl
      | some sig => exact ownLoop_index

omit [DecidableEq Sig] [DecidableEq Key] in
theorem ownSigned_verifies : ∀ {initialUpdated : Bool} {jobs},
    (∀ job ∈ jobs, env.peerKey job.1 = some job.2.1) → ∀ q ∈ ownSigned host env initialUpdated jobs,
      q.version = 1 ∧ Verifies host env q
  | _, [], _, q, hq => by cases hq
  | initialUpdated, job :: jobs, hjo, q, hq => by
    unfold ownSigned at hq
    split at hq
    · cases hq
    · split at hq
      · cases hq
      rename_i sig hsig
      rcases mem_cons.1 hq with rfl | hq
      · exact ⟨rfl, ⟨job.2.1, hjo job mem_cons_self, host.sign_recovers _ _ _ hsig⟩, host.unpack_pack _⟩
      · exact ownSigned_verifies (fun j hj => hjo j (mem_cons_of_mem job hj)) q hq

omit [DecidableEq Key] in
theorem ownJobs_peerKey : ∀ job ∈ ownJobs config env, env.peerKey job.1 = some job.2.1 := by
  intro job hjob
  obtain ⟨a, -, hjob⟩ := mem_flatMap.1 hjob
  cases hkey : env.peerKey a.1 with
  | none =>
    rw [hkey] at hjob
    cases hjob
  | some key =>
    rw [hkey] at hjob
    obtain ⟨le, -, rfl⟩ := mem_map.1 hjob
    exact hkey

omit [DecidableEq Sig] [DecidableEq Key] in
theorem own_verifies (host : GossipHost τ Sig Key Digest) (config : GossipConfig) (env : GossipEnv Key) :
    ∀ q ∈ ownSigned host env false (ownJobs config env), q.version = 1 ∧ Verifies host env q :=
  ownSigned_verifies ownJobs_peerKey

theorem receive_index : (s.receive host config env msg).index = s.index := by
  unfold receive
  split
  · rfl
  · split <;> rfl

theorem Sound.receive (h : Sound host s) (hg : Guarded host config s (.receive env msg)) :
    Sound host (s.receive host config env msg) := by
  refine ⟨fun p hp => h.versions p (by rwa [receive_index] at hp), ?_⟩
  unfold GossipNode.receive
  split
  · exact h.waiting
  · split
    case h_1 peers hval =>
      intro w hw p hp
      rcases mem_append.1 hw with hw | hw
      · exact h.waiting w hw p hp
      · cases mem_singleton.1 hw
        obtain ⟨hmsg, hi, hsig⟩ := GossipHost.mem_validated hval hp
        obtain ⟨hver, hk⟩ := hg _ hmsg
        exact ⟨hver, hsig.elim hk id, hi⟩
    · exact h.waiting

theorem gained_of_step (h : Sound host s) (hp : p ∈ (s.step host config e).index.peers)
    (hnot : p ∉ s.index.peers) : p.version = 1 ∧ GainedAt host config s p e := by
  cases e with
  | receive env msg =>
    have hp : p ∈ (s.receive host config env msg).index.peers := hp
    rw [receive_index] at hp
    exact absurd hp hnot
  | update i =>
    have hp : p ∈ (s.update i).index.peers := hp
    unfold GossipNode.update at hp
    split at hp
    · exact absurd hp hnot
    case h_2 w hw =>
      have hwa := h.waiting w (mem_of_getElem? hw)
      have hmem := (GossipIndex.mem_foldl GossipIndex.mem_applyPeer h.versions (fun q hq => (hwa q hq).1) hp).resolve_left
        hnot
      exact ⟨(hwa p hmem).1, w, hw, hmem, (hwa p hmem).2⟩
  | own env =>
    have hp : p ∈ (s.own host config env).index.peers := hp
    have hown := own_verifies host config env
    unfold GossipNode.own at hp
    rw [ownLoop_index] at hp
    have hmem := (GossipIndex.mem_foldl GossipIndex.mem_putOwn h.versions (fun q hq => (hown q hq).1) hp).resolve_left hnot
    exact ⟨(hown p hmem).1, hmem, (hown p hmem).2⟩
  | expire env =>
    have hp : p ∈ (s.expire config env).index.peers := hp
    unfold GossipNode.expire at hp
    split at hp
    · exact absurd hp hnot
    · exact absurd (GossipIndex.mem_eraseIf.1 hp).1 hnot

theorem lost_of_step (h : Sound host s) (hg : Guarded host config s e) (hp : p ∈ s.index.peers)
    (hnot : p ∉ (s.step host config e).index.peers) : LostAt host config s p e := by
  cases e with
  | receive env msg =>
    have hnot : p ∉ (s.receive host config env msg).index.peers := hnot
    rw [receive_index] at hnot
    exact hnot hp
  | update i =>
    have hnot : p ∉ (s.update i).index.peers := hnot
    unfold GossipNode.update at hnot
    split at hnot
    · exact absurd hp hnot
    case h_2 w hw =>
      have hwa := h.waiting w (mem_of_getElem? hw)
      obtain ⟨before, q, after, hs, hb, hl⟩ :=
        exists_last_change (P := fun index : GossipIndex τ Sig => p ∈ index.peers) hp w.2 hnot
      have hl := hl [] after rfl
      rw [foldl_append] at hl
      have hq : q ∈ w.2 := hs ▸ mem_append_right before mem_cons_self
      refine ⟨w, before, q, after, hw, hs, ?_⟩
      exact (GossipIndex.lost_of_applyPeer hb hl).imp_left fun hnew => ⟨(hwa q hq).2, hnew.1, hnew.2⟩
  | own env =>
    have hnot : p ∉ (s.own host config env).index.peers := hnot
    have hown := own_verifies host config env
    unfold GossipNode.own at hnot
    rw [ownLoop_index] at hnot
    obtain ⟨before, q, after, hs, hb, hl⟩ :=
      exists_last_change (P := fun index : GossipIndex τ Sig => p ∈ index.peers) hp _ hnot
    have hl := hl [] after rfl
    rw [foldl_append] at hl
    have hq : q ∈ ownSigned host env false (ownJobs config env) := hs ▸ mem_append_right before mem_cons_self
    have hkey := GossipIndex.lost_of_putOwn hb hl
    exact ⟨q, hq, (hown q hq).2, hkey, hg q hq p hp hkey⟩
  | expire env =>
    have hnot : p ∉ (s.expire config env).index.peers := hnot
    unfold GossipNode.expire at hnot
    split at hnot
    · exact absurd hp hnot
    · by_contra hla
      exact hnot (GossipIndex.mem_eraseIf.2 ⟨hp, decide_eq_false hla⟩)

theorem Sound.step (h : Sound host s) (hg : Guarded host config s e) : Sound host (s.step host config e) := by
  refine ⟨fun p hp => ?_, ?_⟩
  · by_cases hold : p ∈ s.index.peers
    · exact h.versions p hold
    · exact (gained_of_step h hp hold).1
  · cases e with
    | receive env msg => exact (h.receive hg).waiting
    | update i =>
      change ∀ w ∈ (s.update i).waiting, _
      unfold GossipNode.update
      split
      · exact h.waiting
      · exact fun w hw => h.waiting w (mem_of_mem_eraseIdx hw)
    | own env =>
      change ∀ w ∈ (s.own host config env).waiting, _
      unfold GossipNode.own
      rw [ownLoop_waiting]
      exact h.waiting
    | expire env =>
      change ∀ w ∈ (s.expire config env).waiting, _
      unfold GossipNode.expire
      split <;> exact h.waiting

omit [DecidableEq Sig] [DecidableEq Key] in
theorem Sound.start : Sound host (start : GossipNode τ Sig Key) :=
  ⟨fun _ h => absurd h not_mem_nil, fun _ h => absurd h not_mem_nil⟩

def GuardedFrom (host : GossipHost τ Sig Key Digest) (config : GossipConfig) : GossipNode τ Sig Key →
    List (GossipEvent τ Sig Key) → Prop
  | _, [] => True
  | s, e :: events => Guarded host config s e ∧ GuardedFrom host config (s.step host config e) events

theorem GuardedFrom.split {e : GossipEvent τ Sig Key} {after : List (GossipEvent τ Sig Key)} :
    ∀ before {s}, Sound host s →
    GuardedFrom host config s (before ++ e :: after) →
    Sound host (before.foldl (step host config) s) ∧ Guarded host config (before.foldl (step host config) s) e
  | [], _, hs, h => ⟨hs, h.1⟩
  | _ :: before, _, hs, h => GuardedFrom.split before (hs.step h.1) h.2

theorem run_snoc (before : List (GossipEvent τ Sig Key)) (e : GossipEvent τ Sig Key) :
    run host config (before ++ [e]) = (run host config before).step host config e := by
  simp [run, foldl_append]

/-- **Authenticity of the index.** Over every sequence of received messages, updates from them in any interleaving, own updates
and expirations, in which received entries have version 1 and verify when their signature is known, and own entries expire no
earlier than those they replace: every entry of the index verified, over its content and against the peer key of its producer,
in the handling that gave it this content, which it has kept since; and an entry goes only by expiry, for a validly signed one
with the same producer and addresses that expires no earlier, or by the limit per producer. -/
theorem run_authentic (host : GossipHost τ Sig Key Digest) (config : GossipConfig) (events : List (GossipEvent τ Sig Key))
    (hguarded : GuardedFrom host config start events) :
    (∀ p ∈ (run host config events).index.peers, ∃ before e after, events = before ++ e :: after ∧
      p ∉ (run host config before).index.peers ∧ GainedAt host config (run host config before) p e ∧
      ∀ mid rest, after = mid ++ rest → p ∈ (run host config (before ++ e :: mid)).index.peers) ∧
    ∀ before e after, events = before ++ e :: after → ∀ p ∈ (run host config before).index.peers,
      p ∉ (run host config (before ++ [e])).index.peers → LostAt host config (run host config before) p e := by
  constructor
  · intro p hp
    obtain ⟨before, e, after, rfl, hb, hst⟩ := exists_last_change
      (P := fun s : GossipNode τ Sig Key => p ∉ s.index.peers) (f := step host config) not_mem_nil events (not_not.2 hp)
    have hst : ∀ mid rest, after = mid ++ rest → p ∈ (run host config (before ++ e :: mid)).index.peers :=
      fun mid rest hmid => not_not.1 (hst mid rest hmid)
    have hg := hst [] after rfl
    rw [run_snoc] at hg
    exact ⟨before, e, after, rfl, hb, (gained_of_step (GuardedFrom.split before Sound.start hguarded).1 hg hb).2,
      hst⟩
  · rintro before e after rfl p hp hnot
    obtain ⟨hs, hgu⟩ := GuardedFrom.split before Sound.start hguarded
    rw [run_snoc] at hnot
    exact lost_of_step hs hgu hp hnot

/-! Ideal signatures: the key and what was signed. -/

def sampleHost : GossipHost BpPeerInfo (Nat × BpPeer BpPeerInfo) Nat (BpPeer BpPeerInfo) where
  digest := id
  recover := fun sig d => if sig.2 = d then some sig.1 else some 0
  isWebauthn := fun _ => false
  signCompact := fun key d => some (key, d)
  codec := ⟨fun info => [info], fun raw => raw.head?.map (·, raw.tail), fun _ _ => rfl⟩
  validEndpoint := fun endpoint => !endpoint.isEmpty
  sign_recovers := fun key d sig h => by
    cases h
    exact if_pos rfl

def sampleEnv (headBlockTime : UInt32) : GossipEnv Nat := ⟨fun _ => some 7, headBlockTime⟩

def sampleConfig : GossipConfig := [(1, [([1], [1])])]

def samplePeer (endpoint : UInt8) (expiration : UInt32) : BpPeer BpPeerInfo := ⟨1, 2, [⟨[endpoint], [9], expiration⟩]⟩

def sampleSigned (endpoint : UInt8) (expiration : UInt32) : SignedBpPeer BpPeerInfo (Nat × BpPeer BpPeerInfo) :=
  ⟨samplePeer endpoint expiration, 7, samplePeer endpoint expiration⟩

def sampleGossip : List (GossipEvent BpPeerInfo (Nat × BpPeer BpPeerInfo) Nat) :=
  [.own (sampleEnv 100), .receive (sampleEnv 100) [sampleSigned 5 200], .update 0,
    .receive (sampleEnv 110) [sampleSigned 5 300], .update 0]

theorem run_authentic_sampleGossip :
    (run sampleHost sampleConfig sampleGossip).index.peers.map (·.info.expiration) = [7300, 300] ∧
    ∀ p ∈ (run sampleHost sampleConfig sampleGossip).index.peers, ∃ before e after, sampleGossip = before ++ e :: after ∧
      GainedAt sampleHost sampleConfig (run sampleHost sampleConfig before) p e := by
  have hsig : ∀ (endpoint : UInt8) (expiration time : UInt32),
      GossipHost.Signed sampleHost (sampleEnv time) (sampleSigned endpoint expiration) :=
    fun _ _ _ => ⟨7, rfl, if_pos rfl⟩
  refine ⟨by decide +kernel, fun p hp => ?_⟩
  obtain ⟨before, e, after, hs, -, hg, -⟩ := (run_authentic sampleHost sampleConfig sampleGossip
    ⟨fun _ _ _ h => absurd h not_mem_nil, forall_mem_singleton.2 ⟨rfl, fun _ => hsig 5 200 100⟩, trivial,
      forall_mem_singleton.2 ⟨rfl, fun _ => hsig 5 300 110⟩, trivial, trivial⟩).1 p hp
  exact ⟨before, e, after, hs, hg⟩

def sampleForged : List (GossipEvent BpPeerInfo (Nat × BpPeer BpPeerInfo) Nat) :=
  [.own (sampleEnv 100), .receive (sampleEnv 100) [sampleSigned 5 200], .update 0,
    .receive (sampleEnv 110) [sampleSigned 5 300, ⟨samplePeer 6 4000000000, 7, samplePeer 5 200⟩], .update 0]

/-- **The forged endpoint gets into the index**: its signature is known when the message is checked, and free when the message is
applied, since the first entry has replaced it. -/
theorem forged_entry : ∃ p ∈ (run sampleHost sampleConfig sampleForged).index.peers,
      p.producer = 2 ∧ p.info = ⟨[6], [9], 4000000000⟩ ∧
      ∀ time, ¬ GossipHost.Signed sampleHost (sampleEnv time) p.toSignedBpPeer := by
  refine ⟨⟨⟨samplePeer 6 4000000000, 7, samplePeer 5 200⟩, ⟨[6], [9], 4000000000⟩⟩, by decide +kernel, rfl, rfl, ?_⟩
  rintro time ⟨key, hkey, hrec⟩
  cases hkey
  revert hrec
  decide +kernel

end GossipNode
end TheChannel
