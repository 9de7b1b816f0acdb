import TheChannel.LibForest
import TheChannel.Permissions
/-!
# PermissionTree — each account's permissions form a tree under its owner permission

The actions change a permission's authority but never its id, parent, owner or name, its `node`. So the invariant is one
of the list of nodes (`Linked`, `Headed`, `LinkNames`): a permission's parent is an older permission of the same account,
and only an owner permission has none. The tree of an account and the answers of `satisfies` are read off it: ids fall on
the way up, so the loop comes to a permission without a parent before its rounds are as many as the ids.
-/
namespace TheChannel
open Table List

structure PermissionNode where
  id : Nat
  parent : Nat
  owner : Nat
  name : Nat

def PermissionObject.node (p : PermissionObject) : PermissionNode := ⟨p.id, p.parent, p.owner, p.name⟩

namespace PermissionDb

def nodes (s : PermissionDb) : List PermissionNode := s.permissions.rows.map PermissionObject.node

/-! ## The invariant -/

section Nodes

variable {accounts : List Nat} {N N' : List PermissionNode} {n : PermissionNode} {a i : Nat}

def Site (N : List PermissionNode) (account name parent : Nat) : Prop :=
  (name = ownerName ∧ parent = 0) ∨ (name ≠ ownerName ∧ ∃ q ∈ N, q.id ≠ 0 ∧ q.id = parent ∧ q.owner = account)

structure Linked (accounts : List Nat) (N : List PermissionNode) : Prop where
  reserved : ⟨0, 0, 0, 0⟩ ∈ N
  only_reserved : ∀ n ∈ N, n.id = 0 → n = ⟨0, 0, 0, 0⟩
  owned : ∀ n ∈ N, n.id ≠ 0 → n.owner ∈ accounts
  placed : ∀ n ∈ N, n.id ≠ 0 → Site N n.owner n.name n.parent ∧ n.parent < n.id
  named : 0 ∉ accounts

def Headed (N : List PermissionNode) (a : Nat) : Prop :=
  ∃ i j, ⟨i, 0, a, ownerName⟩ ∈ N ∧ ⟨j, i, a, activeName⟩ ∈ N

def LinkNames (N : List PermissionNode) (l : PermissionLinkObject) : Prop :=
  l.requiredPermission = eosioAnyName ∨
    ∃ n ∈ N, n.id ≠ 0 ∧ n.owner = l.account ∧ n.name = l.requiredPermission

section

variable (hN : ∀ n ∈ N, n ∈ N')

include hN

theorem Site.mono {name parent : Nat} (h : Site N a name parent) : Site N' a name parent :=
  h.imp_right fun ⟨hn, q, hq, hr⟩ => ⟨hn, q, hN q hq, hr⟩

theorem Headed.mono : Headed N a → Headed N' a :=
  fun ⟨i, j, hi, hj⟩ => ⟨i, j, hN _ hi, hN _ hj⟩

theorem LinkNames.mono {l : PermissionLinkObject} (h : LinkNames N l) : LinkNames N' l :=
  h.imp_right fun ⟨n, hn, hr⟩ => ⟨n, hN n hn, hr⟩

end

namespace Linked

section

variable (h : Linked accounts N)

include h

theorem id_ne (hn : n ∈ N) (ho : n.owner ≠ 0) : n.id ≠ 0 := by
  intro hid
  rw [h.only_reserved n hn hid] at ho
  exact ho rfl

theorem addAccount (ha : a ≠ 0) : Linked (a :: accounts) N where
  reserved := h.reserved
  only_reserved := h.only_reserved
  owned := fun n hn hid => mem_cons_of_mem _ (h.owned n hn hid)
  placed := h.placed
  named := fun h0 => (mem_cons.1 h0).elim (fun h0 => ha h0.symm) h.named

theorem cons (hf : ∀ m ∈ N, m.id < n.id) (hown : n.owner ∈ accounts)
    (hs : Site N n.owner n.name n.parent) : Linked accounts (n :: N) := by
  have hpos : 0 < n.id := hf _ h.reserved
  have hsub : ∀ m ∈ N, m ∈ n :: N := fun m hm => mem_cons_of_mem _ hm
  refine ⟨hsub _ h.reserved, ?_, ?_, ?_, h.named⟩
  · intro m hm hid
    rcases mem_cons.1 hm with rfl | hm
    · omega
    · exact h.only_reserved m hm hid
  · intro m hm hid
    rcases mem_cons.1 hm with rfl | hm
    · exact hown
    · exact h.owned m hm hid
  · intro m hm hid
    rcases mem_cons.1 hm with rfl | hm
    · refine ⟨hs.mono hsub, ?_⟩
      rcases hs with ⟨-, hp⟩ | ⟨-, q, hq, -, hp, -⟩
      · rw [hp]
        exact hpos
      · exact hp ▸ hf q hq
    · exact ⟨(h.placed m hm hid).1.mono hsub, (h.placed m hm hid).2⟩

theorem remove (hi : i ≠ 0) (hch : ∀ m ∈ N, m.parent ≠ i)
    (hN : ∀ m, m ∈ N' ↔ m ∈ N ∧ m.id ≠ i) : Linked accounts N' := by
  refine ⟨(hN _).2 ⟨h.reserved, hi.symm⟩, fun m hm => h.only_reserved m ((hN m).1 hm).1,
    fun m hm => h.owned m ((hN m).1 hm).1, fun m hm hid => ?_, h.named⟩
  have hm := ((hN m).1 hm).1
  refine ⟨(h.placed m hm hid).1.imp_right ?_, (h.placed m hm hid).2⟩
  rintro ⟨hn, q, hq, hq0, hp, hown⟩
  exact ⟨hn, q, (hN q).2 ⟨hq, fun hqi => hch m hm (hp ▸ hqi)⟩, hq0, hp, hown⟩

end

end Linked
end Nodes

structure Inv (s : PermissionDb) : Prop where
  linked : Linked s.accounts s.nodes
  headed : ∀ a ∈ s.accounts, Headed s.nodes a
  links : ∀ l ∈ s.links.rows, LinkNames s.nodes l

/-! ## What the functions of the manager do -/

variable {s s' : PermissionDb} {env : AuthEnv} {keyTypes : KeyTypes} {account name parent permission code type : Nat}
  {auth owner active : Authority} {p : PermissionObject} {r : PermissionDb × Nat}

theorem inserted_ok {τ : Type} {o : Option τ} {t : τ} : inserted o = .ok t ↔ o = some t := by
  cases o with
  | none => simp [inserted]
  | some t => simp [inserted]

theorem fresh_node {n : PermissionNode} (hn : n ∈ s.nodes) : n.id < s.permissions.nextId := by
  obtain ⟨p, hp, rfl⟩ := mem_map.1 hn
  exact s.permissions.fresh p hp

theorem getPermission_ok {level : PermissionLevel} (h : s.getPermission level = .ok p) :
    level.actor ≠ 0 ∧ p ∈ s.permissions.rows ∧ p.owner = level.actor ∧ p.name = level.permission := by
  obtain ⟨found, hf, h⟩ := bind_ok h
  obtain ⟨hne, hf⟩ := unit_ok hf
  rw [eosAssert_ok_iff, Bool.and_eq_true, bne_iff_ne] at hne
  cases hf
  split at h
  · rename_i q hq
    cases h
    obtain ⟨hmem, hkey⟩ := findKey_some hq
    exact ⟨hne.1, hmem, congrArg Prod.fst hkey, congrArg Prod.snd hkey⟩
  · cases h

theorem createPermission_ok (h : s.createPermission keyTypes account name parent auth = .ok r) :
    r.2 = s.permissions.nextId ∧ r.1.accounts = s.accounts ∧ r.1.links = s.links ∧
      r.1.nodes = ⟨r.2, parent, account, name⟩ :: s.nodes := by
  replace h := rest_ok h
  obtain ⟨permissions, hins, h⟩ := bind_ok h
  cases h
  refine ⟨rfl, rfl, rfl, ?_⟩
  show permissions.rows.map PermissionObject.node = _
  rw [emplace_some (inserted_ok.1 hins)]
  rfl

theorem active_ne_owner : activeName ≠ ownerName := by decide

/-! ## Each change keeps the invariant -/

theorem Inv.extend (h : Inv s) (hli : Linked s'.accounts s'.nodes) (hN : ∀ n ∈ s.nodes, n ∈ s'.nodes)
    (hls : s'.links = s.links) (hh : ∀ a ∈ s'.accounts, a ∈ s.accounts ∨ Headed s'.nodes a) : Inv s' where
  linked := hli
  headed := fun a ha => (hh a ha).elim (fun ha => (h.headed a ha).mono hN) id
  links := fun l hl => (h.links l (hls ▸ hl)).mono hN

theorem Inv.create (h : Inv s)
    (hc : s.createPermission keyTypes account name parent auth = .ok r) (hacc : account ∈ s.accounts)
    (hs : Site s.nodes account name parent) : Inv r.1 := by
  obtain ⟨hid, hac, hl, hno⟩ := createPermission_ok hc
  refine h.extend ?_ ?_ hl fun a ha => .inl (hac ▸ ha)
  · rw [hac, hno]
    exact h.linked.cons (fun m hm => (fresh_node hm).trans_eq hid.symm) hacc hs
  · rw [hno]
    exact fun n hn => mem_cons_of_mem _ hn

theorem Inv.addAccount (h : Inv s) (hna : name ≠ 0)
    (hc : createOwnerAndActive { s with accounts := name :: s.accounts } keyTypes name owner active = .ok s') :
    Inv s' ∧ name ∈ s'.accounts := by
  obtain ⟨r1, h1, hc⟩ := bind_ok hc
  obtain ⟨r2, h2, hc⟩ := bind_ok hc
  cases hc
  obtain ⟨hid1, hacc1, hl1, hn1⟩ := createPermission_ok h1
  obtain ⟨hid2, hacc2, hl2, hn2⟩ := createPermission_ok h2
  have hin : name ∈ r1.1.accounts := hacc1 ▸ mem_cons_self ..
  have hf : Linked r1.1.accounts r1.1.nodes := by
    rw [hacc1, hn1]
    exact (h.linked.addAccount hna).cons (fun m hm => (fresh_node hm).trans_eq hid1.symm) (mem_cons_self ..)
      (.inl ⟨rfl, rfl⟩)
  have hs : (⟨r1.2, 0, name, ownerName⟩ : PermissionNode) ∈ r1.1.nodes := hn1 ▸ mem_cons_self ..
  have hsub : ∀ n ∈ s.nodes, n ∈ r2.1.nodes := by
    intro n hn
    rw [hn2, hn1]
    exact mem_cons_of_mem _ (mem_cons_of_mem _ hn)
  refine ⟨h.extend ?_ hsub (hl2.trans hl1) ?_, hacc2 ▸ hin⟩
  · rw [hacc2, hn2]
    refine hf.cons (fun m hm => (fresh_node hm).trans_eq hid2.symm) hin (.inr ⟨active_ne_owner, _, hs, ?_, rfl, rfl⟩)
    exact hf.id_ne hs hna
  · intro a ha
    rw [hacc2, hacc1] at ha
    rcases mem_cons.1 ha with rfl | ha
    · refine .inr ⟨r1.2, r2.2, ?_, ?_⟩
      · rw [hn2]
        exact mem_cons_of_mem _ hs
      · rw [hn2]
        exact mem_cons_self ..
    · exact .inl ha

theorem Inv.remove (h : Inv s) {p : PermissionObject} (hp : p ∈ s.permissions.rows) (hp0 : p.id ≠ 0)
    (hown : p.name ≠ ownerName) (hact : p.name ≠ activeName)
    (hli : ∀ l ∈ s.links.rows, ¬ (l.account = p.owner ∧ l.requiredPermission = p.name))
    (hc : s.removePermission p = .ok s') : Inv s' := by
  obtain ⟨hch, hacc, hls, hnd⟩ : (∀ n ∈ s.nodes, n.parent ≠ p.id) ∧ s'.accounts = s.accounts ∧ s'.links = s.links ∧
      ∀ n, n ∈ s'.nodes ↔ n ∈ s.nodes ∧ n.id ≠ p.id := by
    obtain ⟨hch, hc⟩ := unit_ok hc
    cases hc
    refine ⟨fun n hn => ?_, rfl, rfl, fun n => ?_⟩
    · obtain ⟨q, hq, rfl⟩ := mem_map.1 hn
      rw [eosAssert_ok_iff, Bool.not_eq_true', any_eq_false] at hch
      exact fun hqp => hch q hq (beq_iff_eq.2 hqp)
    · show n ∈ (s.permissions.erase p.id).rows.map _ ↔ _
      constructor
      · intro hn
        obtain ⟨q, hq, rfl⟩ := mem_map.1 hn
        obtain ⟨hq, hne⟩ := mem_erase.1 hq
        exact ⟨mem_map_of_mem hq, hne⟩
      · rintro ⟨hn, hne⟩
        obtain ⟨q, hq, rfl⟩ := mem_map.1 hn
        exact mem_map_of_mem (mem_erase.2 ⟨hq, hne⟩)
  -- another node is still there
  have hk {n : PermissionNode} (hn : n ∈ s.nodes) (hne : ¬ (n.owner = p.owner ∧ n.name = p.name)) : n ∈ s'.nodes := by
    refine (hnd n).2 ⟨hn, fun hid => hne ?_⟩
    obtain ⟨q, hq, rfl⟩ := mem_map.1 hn
    have hqp : q = p := eq_of_id (R := permissionRows) hq hp hid
    exact ⟨congrArg PermissionObject.owner hqp, congrArg PermissionObject.name hqp⟩
  refine ⟨hacc ▸ h.linked.remove hp0 hch hnd, fun a ha => ?_, fun l hl => ?_⟩
  · obtain ⟨i, j, hi, hj⟩ := h.headed a (hacc ▸ ha)
    exact ⟨i, j, hk hi (fun hn => hown hn.2.symm), hk hj (fun hn => hact hn.2.symm)⟩
  · rw [hls] at hl
    refine (h.links l hl).imp_right ?_
    rintro ⟨n, hn, hn0, hno, hnn⟩
    refine ⟨n, hk hn (fun hpn => hli l hl ⟨?_, ?_⟩), hn0, hno, hnn⟩
    · exact hno.symm.trans hpn.1
    · exact hnn.symm.trans hpn.2

/-! ## Each action keeps the invariant -/

theorem Inv.site_under (h : Inv s) (hn : name ≠ ownerName)
    (hp : s.getPermission ⟨account, parent⟩ = .ok p) : Site s.nodes account name p.id := by
  obtain ⟨hacc, hmem, hown, -⟩ := getPermission_ok hp
  have hno : p.node ∈ s.nodes := mem_map_of_mem hmem
  exact .inr ⟨hn, p.node, hno, h.linked.id_ne hno (fun h0 => hacc (hown ▸ h0)), rfl, hown⟩

theorem Inv.newaccount (h : Inv s) {creator : Nat}
    (hc : s.applyNewaccount env creator name owner active = .ok s') : Inv s' := by
  iterate 4 replace hc := rest_ok hc
  obtain ⟨hn, hc⟩ := unit_ok hc
  iterate 6 replace hc := rest_ok hc
  exact (h.addAccount (by simpa using hn) hc).1

theorem Inv.updateauth (h : Inv s) (hc : s.applyUpdateauth env account permission parent auth = .ok s') : Inv s' := by
  iterate 5 replace hc := rest_ok hc
  obtain ⟨hacc, hc⟩ := unit_ok hc
  iterate 5 replace hc := rest_ok hc
  obtain ⟨found, -, hc⟩ := bind_ok hc
  obtain ⟨id, hid, hc⟩ := bind_ok hc
  have hacc : account ∈ s.accounts := by simpa [getAccount] using hacc
  cases found with
  | some p =>
    iterate 2 replace hc := rest_ok hc
    have hno : s'.nodes = s.nodes := by
      rw [← Except.ok.inj hc]
      exact map_keeps (c := setAuth auth) (fun _ => rfl) _ _
    cases hc
    refine h.extend ?_ (fun n hn => hno ▸ hn) rfl fun a ha => .inl ha
    exact hno.symm ▸ h.linked
  | none =>
    obtain ⟨r, hr, hc⟩ := bind_ok hc
    cases hc
    refine h.create hr hacc ?_
    unfold parentId at hid
    split at hid
    · rename_i hn
      cases hget : s.getPermission ⟨account, parent⟩ with
      | error e =>
        rw [hget] at hid
        cases hid
      | ok p =>
        rw [hget] at hid
        cases hid
        exact h.site_under (bne_iff_ne.1 hn) hget
    · rename_i hn
      cases hid
      exact .inl ⟨by simpa using hn, rfl⟩

theorem Inv.deleteauth (h : Inv s) (hc : s.applyDeleteauth env account permission = .ok s') : Inv s' := by
  iterate 2 replace hc := rest_ok hc
  obtain ⟨hact, hc⟩ := unit_ok hc
  obtain ⟨hown, hc⟩ := unit_ok hc
  obtain ⟨hli, hc⟩ := unit_ok hc
  obtain ⟨p, hp, hc⟩ := bind_ok hc
  obtain ⟨hacc, hmem, hpo, hpn⟩ := getPermission_ok hp
  have hid : p.id ≠ 0 := h.linked.id_ne (mem_map_of_mem hmem) fun h0 => hacc (hpo.symm.trans h0)
  rw [eosAssert_ok_iff, bne_iff_ne] at hact hown
  refine h.remove hmem hid (hpn ▸ hown) (hpn ▸ hact) (fun l hl => ?_) hc
  rw [eosAssert_ok_iff, Bool.not_eq_true', any_eq_false] at hli
  rw [hpo, hpn]
  simpa using hli l hl

theorem Inv.requirement (h : Inv s) (hf : env.onlyLinkToExistingPermission = true) (hacc : account ∈ s.accounts)
    (hc : s.checkRequirement env account permission = .ok ()) :
    permission = eosioAnyName ∨ ∃ n ∈ s.nodes, n.id ≠ 0 ∧ n.owner = account ∧ n.name = permission := by
  unfold checkRequirement at hc
  by_cases hany : permission = eosioAnyName
  · exact .inl hany
  · rw [if_pos (bne_iff_ne.2 hany), hf, if_pos rfl, eosAssert_ok_iff] at hc
    obtain ⟨p, hp⟩ := Option.isSome_iff_exists.1 hc
    obtain ⟨hmem, hkey⟩ := findKey_some hp
    have hn : p.node ∈ s.nodes := mem_map_of_mem hmem
    have hown : p.owner = account := congrArg Prod.fst hkey
    refine .inr ⟨p.node, hn, h.linked.id_ne hn (fun h0 => ?_), hown, congrArg Prod.snd hkey⟩
    have h0 : p.owner = 0 := h0
    exact h.linked.named (h0 ▸ hown ▸ hacc)

theorem Inv.linkauth (h : Inv s) (hf : env.onlyLinkToExistingPermission = true)
    (hc : s.applyLinkauth env account code type permission = .ok s') : Inv s' := by
  iterate 3 replace hc := rest_ok hc
  obtain ⟨hacc, hc⟩ := unit_ok hc
  replace hc := rest_ok hc
  obtain ⟨hr, hc⟩ := unit_ok hc
  have hr := h.requirement hf (by simpa using hacc) hr
  split at hc
  · rename_i link hli
    replace hc := rest_ok hc
    cases hc
    obtain ⟨hmem, hkey⟩ := findKey_some hli
    have hact : link.account = account := congrArg Prod.fst hkey
    refine ⟨h.linked, h.headed, fun l hl => ?_⟩
    rcases mem_modify hl with hl | ⟨l', hl', hid, rfl⟩
    · exact h.links l hl
    · have hl' : l' = link := eq_of_id hl' hmem hid
      rw [hl']
      rw [← hact] at hr
      exact hr
  · obtain ⟨links, hins, hc⟩ := bind_ok hc
    cases hc
    refine ⟨h.linked, h.headed, fun l hl => ?_⟩
    have hl : l ∈ links.rows := hl
    rw [emplace_some (inserted_ok.1 hins)] at hl
    rcases mem_cons.1 hl with rfl | hl
    · exact hr
    · exact h.links l hl

theorem Inv.unlinkauth (h : Inv s) (hc : s.applyUnlinkauth env account code type = .ok s') : Inv s' := by
  iterate 2 replace hc := rest_ok hc
  split at hc
  · cases hc
    exact ⟨h.linked, h.headed, fun l hl => h.links l (mem_erase.1 hl).1⟩
  · cases hc

theorem Inv.step (h : Inv s) {a : AuthEnv × AuthAction} (hf : a.1.onlyLinkToExistingPermission = true) :
    Inv (s.step a) := by
  unfold PermissionDb.step
  split
  · rename_i s' hs'
    cases ha : a.2 with
    | newaccount creator name owner active => exact h.newaccount (ha ▸ hs')
    | updateauth account permission parent auth => exact h.updateauth (ha ▸ hs')
    | deleteauth account permission => exact h.deleteauth (ha ▸ hs')
    | linkauth account code type requirement => exact h.linkauth hf (ha ▸ hs')
    | unlinkauth account code type => exact h.unlinkauth (ha ▸ hs')
  · exact h

theorem Inv.run : ∀ actions {s}, Inv s →
    (∀ a ∈ actions, a.1.onlyLinkToExistingPermission = true) → Inv (s.run actions)
  | [], _, h, _ => h
  | a :: actions, s, h, hf => by
    have hstep : Inv (s.step a) := h.step (hf a (mem_cons_self ..))
    exact Inv.run actions hstep fun b hb => hf b (mem_cons_of_mem _ hb)

/-! ## The database at genesis -/

theorem Inv.createNativeAccount (h : Inv s) (hn : name ≠ 0)
    (hc : s.createNativeAccount keyTypes name owner active = .ok s') : Inv s' ∧ name ∈ s'.accounts := by
  obtain ⟨accounts, hins, hc⟩ := bind_ok hc
  have hins := inserted_ok.1 hins
  split at hins
  · cases hins
  · cases hins
    exact h.addAccount hn hc

theorem Inv.init {which : Nat → Nat} {initialKey : Nat} (h : initializeDatabase which initialKey = .ok s) : Inv s := by
  obtain ⟨permissions, hins, h⟩ := bind_ok h
  obtain ⟨s1, h1, h⟩ := bind_ok h
  obtain ⟨s2, h2, h⟩ := bind_ok h
  obtain ⟨s3, h3, h⟩ := bind_ok h
  obtain ⟨p, hp, h⟩ := bind_ok h
  obtain ⟨r1, hr1, h⟩ := bind_ok h
  obtain ⟨r2, hr2, h⟩ := bind_ok h
  cases h
  have hno : permissions.rows.map PermissionObject.node = [⟨0, 0, 0, 0⟩] := by
    rw [emplace_some (inserted_ok.1 hins)]
    rfl
  have h₀ : Inv ⟨[], permissions, empty⟩ := by
    refine ⟨?_, fun a ha => absurd ha not_mem_nil, fun l hl => absurd hl not_mem_nil⟩
    show Linked [] (permissions.rows.map PermissionObject.node)
    rw [hno]
    have hon : ∀ n ∈ [(⟨0, 0, 0, 0⟩ : PermissionNode)], n = ⟨0, 0, 0, 0⟩ := fun n hn => mem_singleton.1 hn
    exact ⟨mem_singleton_self _, fun n hn _ => hon n hn, fun n hn h0 => absurd (hon n hn ▸ rfl) h0,
      fun n hn h0 => absurd (hon n hn ▸ rfl) h0, not_mem_nil⟩
  obtain ⟨i1, -⟩ := h₀.createNativeAccount (by decide) h1
  obtain ⟨i2, -⟩ := i1.createNativeAccount (by decide) h2
  obtain ⟨i3, hacc⟩ := i2.createNativeAccount (by decide) h3
  have i4 := i3.create hr1 hacc (i3.site_under (by decide) hp)
  obtain ⟨-, hacc1, -, hn1⟩ := createPermission_ok hr1
  have hs : (⟨r1.2, p.id, producersAccountName, majorityProducersPermissionName⟩ : PermissionNode) ∈ r1.1.nodes :=
    hn1 ▸ mem_cons_self ..
  have hpr : producersAccountName ≠ 0 := by decide
  exact i4.create hr2 (hacc1 ▸ hacc) (.inr ⟨by decide, _, hs, i4.linked.id_ne hs hpr, rfl, rfl⟩)

/-! ## The trees -/

def Parent (s : PermissionDb) (p q : PermissionObject) : Prop := q ∈ s.permissions.rows ∧ q.id ≠ 0 ∧ p.parent = q.id

def permissionsOf (s : PermissionDb) (account : Nat) : Set PermissionObject :=
  { p | p ∈ s.permissions.rows ∧ p.id ≠ 0 ∧ p.owner = account }

theorem Parent.unique {q q' : PermissionObject} (h : s.Parent p q) (h' : s.Parent p q') : q = q' :=
  eq_of_id (R := permissionRows) h.1 h'.1 (h.2.2.symm.trans h'.2.2)

namespace Inv
variable {p q : PermissionObject}

theorem exists_parent (h : Inv s) (hp : p ∈ s.permissions.rows) (hp0 : p.id ≠ 0) (hna : p.name ≠ ownerName) :
    ∃ q, s.Parent p q ∧ q.owner = p.owner ∧ q.id < p.id := by
  obtain ⟨hs, hlt⟩ := h.linked.placed p.node (mem_map_of_mem hp) hp0
  obtain ⟨-, n, hn, hn0, hid, hown⟩ := hs.resolve_left fun ho => hna ho.1
  obtain ⟨q, hq, rfl⟩ := mem_map.1 hn
  have hid : q.id = p.parent := hid
  exact ⟨q, ⟨hq, hn0, hid.symm⟩, hown, hid.trans_lt hlt⟩

theorem reserved_of_id (h : Inv s) (hp : p ∈ s.permissions.rows) (hp0 : p.id = 0) : p.parent = 0 ∧ p.owner = 0 := by
  have hn := h.linked.only_reserved p.node (mem_map_of_mem hp) hp0
  exact ⟨congrArg PermissionNode.parent hn, congrArg PermissionNode.owner hn⟩

theorem not_parent_of_zero (hp0 : p.parent = 0) : ¬ s.Parent p q := fun hpq => hpq.2.1 (hpq.2.2.symm.trans hp0)

theorem parent_of_ne (h : Inv s) (hp : p ∈ s.permissions.rows) (hp0 : p.parent ≠ 0) :
    ∃ q, s.Parent p q ∧ q.owner = p.owner ∧ q.id < p.id := by
  have hid : p.id ≠ 0 := fun hid => hp0 (h.reserved_of_id hp hid).1
  obtain ⟨hs, -⟩ := h.linked.placed p.node (mem_map_of_mem hp) hid
  exact h.exists_parent hp hid fun hn => hp0 (hs.resolve_right fun ho => ho.1 hn).2

theorem parent_owner (h : Inv s) (hp : p ∈ s.permissions.rows) (hpq : s.Parent p q) : q.owner = p.owner := by
  obtain ⟨q', hpq', hown, -⟩ := h.parent_of_ne hp fun h0 => not_parent_of_zero h0 hpq
  exact hpq.unique hpq' ▸ hown

theorem tree (h : Inv s) {a : Nat} (ha : a ∈ s.accounts) :
    ∃ owner active, owner.name = ownerName ∧ active.name = activeName ∧ active ∈ s.permissionsOf a ∧
      IsTree (s.permissionsOf a) s.Parent owner ∧ s.Parent active owner := by
  have ha0 : a ≠ 0 := fun h0 => h.linked.named (h0 ▸ ha)
  obtain ⟨i, j, hi, hj⟩ := h.headed a ha
  have hi0 : i ≠ 0 := h.linked.id_ne hi ha0
  have hj0 : j ≠ 0 := h.linked.id_ne hj ha0
  obtain ⟨o, ho, hoi⟩ := mem_map.1 hi
  obtain ⟨c, hc, hcj⟩ := mem_map.1 hj
  obtain ⟨rfl, hop, rfl, hon⟩ := PermissionNode.mk.inj hoi
  obtain ⟨rfl, hcp, hco, hcn⟩ := PermissionNode.mk.inj hcj
  refine ⟨o, c, hon, hcn, ⟨hc, hj0, hco⟩, ?_, ho, hi0, hcp⟩
  refine .of_rank PermissionObject.id ⟨ho, hi0, rfl⟩ (fun w => not_parent_of_zero hop) (fun v _ w w' => Parent.unique) ?_
  rintro v ⟨hv, hv0, hvo⟩ hne
  -- the owner permission is the only one of its name
  have hn : v.name ≠ ownerName := fun hvn =>
    hne (eq_of_key (R := permissionRows) hv ho (Prod.ext hvo (hvn.trans hon.symm)))
  obtain ⟨w, hvw, hwo, hlt⟩ := h.exists_parent hv hv0 hn
  exact ⟨w, ⟨hvw.1, hvw.2.1, hwo.trans hvo⟩, hvw, hlt⟩

/-! ## `satisfies` -/

theorem satisfiesLoop_spec (h : Inv s) {this : PermissionObject} (hth : this ∈ s.permissions.rows) (h0 : this.id ≠ 0) :
    ∀ {n : Nat} {p}, p ∈ s.permissions.rows → p.id < n →
      ∃ b, s.satisfiesLoop this.id n p = some (.ok b) ∧ (b = true ↔ Relation.TransGen s.Parent p this)
  | 0, p, _, hn => absurd hn (Nat.not_lt_zero _)
  | n + 1, p, hp, hn => by
    unfold satisfiesLoop
    by_cases hid : this.id = p.parent
    · rw [if_pos (beq_iff_eq.2 hid)]
      exact ⟨true, rfl, fun _ => .single ⟨hth, h0, hid.symm⟩, fun _ => rfl⟩
    rw [if_neg (fun heq => hid (beq_iff_eq.1 heq))]
    by_cases hp0 : p.parent = 0
    · rw [if_pos (beq_iff_eq.2 hp0)]
      refine ⟨false, rfl, fun hb => absurd hb Bool.false_ne_true, fun ht => ?_⟩
      obtain ⟨q, hpq, -⟩ := Relation.TransGen.head'_iff.1 ht
      exact absurd hpq (not_parent_of_zero hp0)
    rw [if_neg (fun heq => hp0 (beq_iff_eq.1 heq))]
    obtain ⟨q, hpq, -, hlt⟩ := h.parent_of_ne hp hp0
    have hf : s.permissions.findId p.parent = some q := findId_eq_some.2 ⟨hpq.1, hpq.2.2.symm⟩
    obtain ⟨b, hb, hiff⟩ := satisfiesLoop_spec h hth h0 (n := n) hpq.1 (by omega)
    rw [hf]
    refine ⟨b, hb, hiff.trans ?_⟩
    have hne : this ≠ q := fun heq => hid (heq ▸ hpq.2.2.symm)
    rw [transGen_parent hpq (fun q' hq' => hq'.unique hpq), Relation.reflTransGen_iff_eq_or_transGen]
    exact ⟨.inr, fun ht => ht.resolve_left hne⟩

theorem satisfies_spec (h : Inv s) {p other : PermissionObject} (hp : p ∈ s.permissions.rows)
    (hot : other ∈ s.permissions.rows) {rounds : Nat} (hr : s.permissions.nextId ≤ rounds) :
    ∃ b, s.satisfies rounds p other = some (.ok b) ∧
      (b = true ↔ p.owner = other.owner ∧ Relation.ReflTransGen s.Parent other p) := by
  unfold satisfies
  by_cases hown : p.owner = other.owner
  swap
  · rw [if_pos (bne_iff_ne.2 hown)]
    exact ⟨false, rfl, fun hb => absurd hb Bool.false_ne_true, fun hb => absurd hb.1 hown⟩
  rw [if_neg (fun hne => bne_iff_ne.1 hne hown)]
  by_cases hid : p.id = other.id
  · rw [if_pos (by simp [hid])]
    have heq : p = other := eq_of_id (R := permissionRows) hp hot hid
    exact ⟨true, rfl, fun _ => ⟨hown, heq ▸ .refl⟩, fun _ => rfl⟩
  -- the reserved object is the only one without an account
  have hp0 : p.id ≠ 0 := by
    intro hp0
    by_cases ho0 : other.id = 0
    · exact hid (hp0.trans ho0.symm)
    · have := h.linked.owned other.node (mem_map_of_mem hot) ho0
      exact h.linked.named ((hown.symm.trans (h.reserved_of_id hp hp0).2) ▸ this)
  by_cases hpa : p.id = other.parent
  · rw [if_pos (by simp [hpa])]
    exact ⟨true, rfl, fun _ => ⟨hown, .single ⟨hp, hp0, hpa.symm⟩⟩, fun _ => rfl⟩
  rw [if_neg (by simp [hid, hpa])]
  have hne : p ≠ other := fun heq => hid (heq ▸ rfl)
  rw [Relation.reflTransGen_iff_eq_or_transGen, or_iff_right hne, and_iff_right hown]
  by_cases ho0 : other.parent = 0
  · obtain ⟨r, hr', hrn⟩ := mem_map.1 h.linked.reserved
    have hr0 : r.id = 0 := congrArg PermissionNode.id hrn
    have hf : s.permissions.findId other.parent = some r := findId_eq_some.2 ⟨hr', hr0.trans ho0.symm⟩
    rw [hf]
    obtain ⟨b, hb, hiff⟩ := h.satisfiesLoop_spec hp hp0 hr' ((s.permissions.fresh r hr').trans_le hr)
    refine ⟨b, hb, hiff.trans ⟨fun ht => ?_, fun ht => ?_⟩⟩
    · obtain ⟨q, hrq, -⟩ := Relation.TransGen.head'_iff.1 ht
      exact absurd hrq (not_parent_of_zero (h.reserved_of_id hr' hr0).1)
    · obtain ⟨q, hoq, -⟩ := Relation.TransGen.head'_iff.1 ht
      exact absurd hoq (not_parent_of_zero ho0)
  · obtain ⟨q, hoq, -, -⟩ := h.parent_of_ne hot ho0
    have hf : s.permissions.findId other.parent = some q := findId_eq_some.2 ⟨hoq.1, hoq.2.2.symm⟩
    rw [hf]
    obtain ⟨b, hb, hiff⟩ := h.satisfiesLoop_spec hp hp0 hoq.1 ((s.permissions.fresh q hoq.1).trans_le hr)
    refine ⟨b, hb, hiff.trans ?_⟩
    have hpq : p ≠ q := fun heq => hpa (heq ▸ hoq.2.2.symm)
    rw [transGen_parent hoq (fun q' hq' => hq'.unique hoq), Relation.reflTransGen_iff_eq_or_transGen]
    exact ⟨.inr, fun ht => ht.resolve_left hpq⟩

end Inv

/-- **The permission tree.** After every sequence of actions from genesis, with the feature active: each account's
permissions are a tree under its owner permission, with the active permission directly below it; every parent belongs to
the account of its child; every link names a permission of its account or the any permission; and `satisfies` returns,
within as many rounds as there are ids, whether the first permission is the second or above it in the same account. -/
theorem run_permissionTree {s₀ : PermissionDb} {which : Nat → Nat} {initialKey : Nat}
    (hinit : initializeDatabase which initialKey = .ok s₀) {actions : List (AuthEnv × AuthAction)}
    (hfeature : ∀ a ∈ actions, a.1.onlyLinkToExistingPermission = true) {s : PermissionDb} (hs : s = s₀.run actions) :
    (∀ a ∈ s.accounts, ∃ owner active, owner.name = ownerName ∧ active.name = activeName ∧ active ∈ s.permissionsOf a ∧
      IsTree (s.permissionsOf a) s.Parent owner ∧ s.Parent active owner) ∧
    (∀ p ∈ s.permissions.rows, p.id ≠ 0 → p.owner ∈ s.accounts) ∧
    (∀ p ∈ s.permissions.rows, ∀ q, s.Parent p q → q.owner = p.owner) ∧
    (∀ l ∈ s.links.rows, l.requiredPermission = eosioAnyName ∨
      ∃ p ∈ s.permissionsOf l.account, p.name = l.requiredPermission) ∧
    (∀ p ∈ s.permissions.rows, ∀ other ∈ s.permissions.rows, ∀ rounds ≥ s.permissions.nextId,
      ∃ b, s.satisfies rounds p other = some (.ok b) ∧
        (b = true ↔ p.owner = other.owner ∧ Relation.ReflTransGen s.Parent other p)) := by
  have h : Inv s := hs ▸ Inv.run actions (Inv.init hinit) hfeature
  refine ⟨fun a ha => h.tree ha, fun p hp hp0 => h.linked.owned p.node (mem_map_of_mem hp) hp0,
    fun p hp q hpq => h.parent_owner hp hpq, fun l hl => (h.links l hl).imp_right ?_,
    fun p hp other hot rounds hr => h.satisfies_spec hp hot hr⟩
  rintro ⟨n, hn, hn0, hown, hna⟩
  obtain ⟨p, hp, rfl⟩ := mem_map.1 hn
  exact ⟨p, ⟨hp, hn0, hown⟩, hna⟩

def sampleGenesis : PermissionDb :=
  match initializeDatabase (fun _ => 0) 5 with
  | .ok s => s
  | .error _ => ⟨[], empty, empty⟩

def sampleEnv : AuthEnv := ⟨false, [systemAccountName, 16], fun _ => true, ⟨fun _ => 0, 2⟩, [], 10, true⟩

def sampleActions : List (AuthEnv × AuthAction) :=
  [(sampleEnv, .newaccount systemAccountName 16 ⟨1, [⟨5, 1⟩], [], []⟩ ⟨1, [⟨6, 1⟩], [], []⟩),
   (sampleEnv, .updateauth 16 17 activeName ⟨1, [⟨7, 1⟩], [], []⟩),
   (sampleEnv, .updateauth 16 18 17 ⟨1, [⟨8, 1⟩], [], []⟩),
   (sampleEnv, .linkauth 16 systemAccountName 1 18),
   (sampleEnv, .deleteauth 16 17),
   (sampleEnv, .deleteauth 16 18)]

theorem run_permissionTree_sample :
    ((sampleGenesis.run sampleActions).permissions.rows.map PermissionObject.id).take 4 = [12, 11, 10, 9] ∧
    (sampleGenesis.run sampleActions).links.rows = [⟨0, 16, systemAccountName, 1, 18⟩] ∧
    ∃ owner active, owner.name = ownerName ∧ active.name = activeName ∧
      active ∈ (sampleGenesis.run sampleActions).permissionsOf 16 ∧
      IsTree ((sampleGenesis.run sampleActions).permissionsOf 16) (sampleGenesis.run sampleActions).Parent owner ∧
      (sampleGenesis.run sampleActions).Parent active owner := by
  have hg : initializeDatabase (fun _ => 0) 5 = .ok sampleGenesis := rfl
  have hf : ∀ a ∈ sampleActions, a.1.onlyLinkToExistingPermission = true := by decide
  exact ⟨by decide, by decide, (run_permissionTree hg hf rfl).1 16 (by decide)⟩

end PermissionDb
end TheChannel
