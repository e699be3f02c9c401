import LiquidityNet.Fixture
import LiquidityNet.Proofs.Bond.Rewards
import LiquidityNet.Proofs.Validators.Selection
import LiquidityNet.Proofs.Validators.Turnover

/-!
# Members of the active vaults

While every active node is in an active vault, only forced nodes leave at the end of a block, but
all of these at once. Conversely the members of the active vaults are active afterwards, but for
those that were disabled before and those that were forced out.
-/

namespace LiquidityNet

open LiquidityNet.Action Ledger Standing

variable {s t : Ledger} {n m : Node} {k : PublicKey} {vaults : List Vault} {present : List Node}

namespace Rotation

/-- The status in which the end of a block leaves a member of an active vault. -/
def memberStatus (n : Node) : NodeStatus :=
  if n.status = .disabled ∨ n.status = .active ∧ n.forcedToLeave = true then .disabled else .active

theorem mem_memberKeys : k ∈ memberKeys vaults ↔ ∃ w ∈ vaults, k ∈ w.members := by
  rw [memberKeys, List.mem_eraseDups, List.mem_mergeSort, List.mem_flatMap]

theorem leaves_of_member {members : List PublicKey} (hn : n.vaultKey = some k) (hk : k ∈ members) :
    leaves members n = n.forcedToLeave := by
  unfold leaves
  rw [hn]
  simp [hk]

section

variable {c : Changes} (hs : s.NodesComplete) (hc : changes s = .ok c)
  (hvaults : Vaults.asgards .active s = .ok vaults)
include hs hc hvaults

theorem mem_leaving (hn : s.nodeAt n.address = some n) :
    n.address ∈ c.leaving.map (·.address) ↔
      n.status = .active ∧ leaves (memberKeys vaults) n = true := by
  obtain ⟨listed, present, found, hlisted, hpresent, -, rfl⟩ := changes_ok hc
  obtain rfl : vaults = listed := Except.ok.inj (hvaults.symm.trans hlisted)
  constructor
  · intro hleaving
    obtain ⟨x, hx, haddress⟩ := List.mem_map.1 hleaving
    obtain ⟨hx, hleaves⟩ := List.mem_filter.1 hx
    obtain ⟨hnode, hactive⟩ := (Nodes.mem_active hs hpresent).1 hx
    rw [haddress, hn] at hnode
    cases hnode
    exact ⟨Node.isActive_iff.1 hactive, hleaves⟩
  · rintro ⟨hstatus, hleaves⟩
    refine List.mem_map_of_mem (List.mem_filter.2 ⟨?_, hleaves⟩)
    exact (Nodes.mem_active hs hpresent).2 ⟨hn, Node.isActive_iff.2 hstatus⟩

theorem mem_joining (hn : Nodes.holding? k s = .ok (some n)) (hk : k ∈ memberKeys vaults) :
    n.address ∈ c.joining.map (·.address) ↔ n.status ≠ .active ∧ n.status ≠ .disabled := by
  obtain ⟨listed, present, found, hlisted, -, hfound, rfl⟩ := changes_ok hc
  obtain rfl : vaults = listed := Except.ok.inj (hvaults.symm.trans hlisted)
  constructor
  · intro hjoining
    obtain ⟨x, hx, haddress⟩ := List.mem_map.1 hjoining
    obtain ⟨o, ho, hsome⟩ := List.mem_filterMap.1 hx
    obtain ⟨k', -, hread⟩ := Query.mem_of_mapM hfound ho
    obtain ⟨p, hp, hread⟩ := Query.bind_eq_ok.1 hread
    cases hread
    obtain ⟨rfl, hstatus⟩ := Option.filter_eq_some_iff.1 hsome
    have hnode := (Nodes.holding?_eq_some hs hp).1
    rw [haddress, (Nodes.holding?_eq_some hs hn).1] at hnode
    cases hnode
    exact of_decide_eq_true hstatus
  · intro hstatus
    obtain ⟨o, ho, hread⟩ := Query.exists_of_mapM hfound hk
    obtain ⟨p, hp, hread⟩ := Query.bind_eq_ok.1 hread
    cases hread
    obtain rfl : p = some n := Except.ok.inj (hp.symm.trans hn)
    refine List.mem_map_of_mem (List.mem_filterMap.2 ⟨_, ho, ?_⟩)
    exact Option.filter_eq_some_iff.2 ⟨rfl, decide_eq_true hstatus⟩

/-- A member stays disabled, is disabled if it is active and forced to leave, and is active
otherwise. -/
theorem turned_member (hn : Nodes.holding? k s = .ok (some n)) (hk : k ∈ memberKeys vaults) :
    (turned c n.address n.standing).status = memberStatus n := by
  obtain ⟨hnode, hkey⟩ := Nodes.holding?_eq_some hs hn
  have hleaving := mem_leaving hs hc hvaults hnode
  rw [leaves_of_member hkey hk] at hleaving
  have hjoining := mem_joining hs hc hvaults hn hk
  unfold turned memberStatus
  by_cases hleaves : n.address ∈ c.leaving.map (·.address)
  · obtain ⟨hactive, hforced⟩ := hleaving.1 hleaves
    rw [if_pos hleaves, if_pos (.inr ⟨hactive, hforced⟩)]
    exact if_pos hforced
  rw [if_neg hleaves]
  rw [hleaving] at hleaves
  by_cases hjoins : n.address ∈ c.joining.map (·.address)
  · obtain ⟨hidle, hable⟩ := hjoining.1 hjoins
    rw [if_pos hjoins, if_neg]
    · rfl
    · rintro (hdisabled | ⟨hactive, -⟩)
      · exact hable hdisabled
      · exact hidle hactive
  · -- Whoever neither leaves nor joins is active or disabled, and does not stand down.
    rw [if_neg hjoins]
    rw [hjoining] at hjoins
    have hready : n.status ≠ .ready := by
      intro h
      rw [h] at hjoins
      exact hjoins ⟨nofun, nofun⟩
    have hstays : n.standing.stoodDown = n.standing := stoodDown_of_ne hready
    rw [hstays, ite_self]
    show n.status = _
    grind

end

/-- If every active node is in an active vault, only forced nodes leave. -/
theorem turned_active {c : Changes} (hs : s.NodesComplete) (hc : changes s = .ok c)
    (hvaults : Vaults.asgards .active s = .ok vaults)
    (hpresent : Nodes.active s = .ok present) (hn : n ∈ present) (hkey : n.vaultKey = some k)
    (hk : k ∈ memberKeys vaults) :
    (turned c n.address n.standing).status = .active ↔ n.forcedToLeave = false := by
  obtain ⟨hnode, hactive⟩ := (Nodes.mem_active hs hpresent).1 hn
  have hstatus : n.standing.status = .active := Node.isActive_iff.1 hactive
  have hleaving := mem_leaving hs hc hvaults hnode
  rw [leaves_of_member hkey hk] at hleaving
  unfold turned
  by_cases hforced : n.forcedToLeave = true
  · rw [if_pos (hleaving.2 ⟨hstatus, hforced⟩)]
    have hleft : n.standing.left.status = .disabled := if_pos hforced
    rw [hleft, hforced]
    decide
  · rw [if_neg fun h => hforced (hleaving.1 h).2, Bool.eq_false_iff.2 hforced]
    refine iff_of_true ?_ rfl
    split
    · rfl
    · rw [stoodDown_of_ne (by rw [hstatus]; decide), ite_self]
      exact hstatus

/-! ## The end of a block -/

theorem viewed_unchanged (ht : Viewed view s.standing? t) :
    Viewed view (fun a => (s.standing? a).map fun x => x) t := by
  simpa only [Option.map_id'] using ht

/-- Whoever holds a key held it before, as far as no keys change. -/
theorem held_before {g : Address → Standing → Standing} (hs : s.NodesComplete)
    (ht : Viewed view (fun a => (s.standing? a).map (g a)) t)
    (hg : ∀ a x, (g a x).keys = x.keys) (hn : Nodes.holding? k t = .ok (some n)) :
    ∃ m, Nodes.holding? k s = .ok (some m) ∧ m.address = n.address ∧
      n.standing = g m.address m.standing := by
  have hkeys : ∀ a, (t.nodeAt a).map Node.keys = (s.nodeAt a).map Node.keys := by
    intro a
    have hview := congrArg (Option.map Standing.keys) (ht.views a)
    simp only [view, standing?, Option.map_map, Function.comp_def, hg] at hview
    exact hview
  obtain ⟨o, ho⟩ := Nodes.holding?_ok hs.filed k
  obtain ⟨m, rfl, haddress⟩ := Option.map_eq_some_iff.1
    (Nodes.holding?_congr hs ht.toNodesComplete hkeys ho hn).symm
  refine ⟨m, ho, haddress, Option.some.inj ?_⟩
  have hview := ht.views m.address
  rw [haddress, (Nodes.holding?_eq_some ht.toNodesComplete hn).1, ← haddress, standing?,
    (Nodes.holding?_eq_some hs ho).1] at hview
  exact hview

variable {engineKeys : List String}

theorem mem_addresses_active {after : List Node} (ht : t.NodesComplete)
    (hafter : Nodes.active t = .ok after) {a : Address} :
    a ∈ after.map (·.address) ↔ ∃ x, t.standing? a = some x ∧ x.status = .active := by
  rw [List.mem_map]
  constructor
  · rintro ⟨n, hn, rfl⟩
    obtain ⟨hnode, hactive⟩ := (Nodes.mem_active ht hafter).1 hn
    exact ⟨n.standing, congrArg view hnode, Node.isActive_iff.1 hactive⟩
  · rintro ⟨x, hx, hactive⟩
    obtain ⟨n, hn, rfl⟩ := Option.map_eq_some_iff.1 hx
    obtain ⟨rfl, hstored⟩ := ht.nodeAt_eq_some.1 hn
    exact ⟨n, (Nodes.mem_active ht hafter).2 ⟨hn, Node.isActive_iff.2 hactive⟩, rfl⟩

theorem mem_missing_iff {after : List Node} {g : Address → Standing → Standing}
    (ht : Viewed view (fun a => (s.standing? a).map (g a)) t) (hafter : Nodes.active t = .ok after)
    (hn : s.nodeAt n.address = some n) :
    n.address ∉ after.map (·.address) ↔ (g n.address n.standing).status ≠ .active := by
  have hstanding : t.standing? n.address = some (g n.address n.standing) := by
    rw [standing?, ht.views, standing?, hn]
    rfl
  rw [mem_addresses_active ht.toNodesComplete hafter, hstanding]
  simp

theorem missing_of_same {after : List Node} (hs : s.NodesComplete)
    (hpresent : Nodes.active s = .ok present) (ht : Viewed view s.standing? t)
    (hafter : Nodes.active t = .ok after) : missing present after = [] := by
  refine List.filter_eq_nil_iff.2 fun n hn hmissing => ?_
  obtain ⟨hnode, hactive⟩ := (Nodes.mem_active hs hpresent).1 hn
  have hmoved := (mem_missing_iff (g := fun _ x => x) (viewed_unchanged ht) hafter hnode).1
    (of_decide_eq_true hmissing)
  exact hmoved (Node.isActive_iff.1 hactive)

/-! ## An assembly of seven, three of them banned -/

def banned (name : String) : Node :=
  { Fixture.node name .active 0 1 with forcedToLeave := true }

def assembly : List Node :=
  ["alva", "bela", "cleo"].map banned ++
    ["dora", "elin", "fred", "gwen"].map fun name => Fixture.node name .active 0 1

def chamber : Vault :=
  { Vault.make 1 .active .asgard (Fixture.key "asgard-1") Fixture.asgardChains with
    members := ["alva", "bela", "cleo", "dora", "elin", "fred", "gwen"].map Fixture.key }

/-- All of the assembly are members of the only vault, and none has a bond. -/
def chambered : Ledger :=
  (ofNodes (.ofEnvironment .mocknet) (.clamp 10) assembly).putRecord (Key.vault chamber.key)
    (.vault chamber)

theorem chambered_complete : chambered.NodesComplete := by
  have hnodes : (ofNodes (.ofEnvironment .mocknet) (.clamp 10) assembly).NodesComplete :=
    nodesComplete_ofNodes (by decide)
  have hall := (hnodes.viewed (f := .blind)).of_changes
    ((Vaults.save_confined chamber).changes rfl) (by decide)
  exact hall.toNodesComplete

/-- What the end of a block reads before it changes anything. -/
theorem chambered_reads :
    Nodes.active chambered = .ok assembly ∧ Vaults.asgards .active chambered = .ok [chamber] ∧
      NetworkState.get chambered = .ok .initial ∧
      chamber.members.mapM joiner? chambered = .ok (List.replicate 7 none) ∧
      endsNow ⟨[], assembly.take 3⟩ chambered = .ok false ∧
      Nodes.holding? (Fixture.key "dora") chambered =
        .ok (some (Fixture.node "dora" .active 0 1)) := by
  have h : (Nodes.active chambered).toOption = some assembly ∧
      (Vaults.asgards .active chambered).toOption = some [chamber] ∧
      (NetworkState.get chambered).toOption = some .initial ∧
      (chamber.members.mapM joiner? chambered).toOption = some (List.replicate 7 none) ∧
      (endsNow ⟨[], assembly.take 3⟩ chambered).toOption = some false ∧
      (Nodes.holding? (Fixture.key "dora") chambered).toOption =
        some (some (Fixture.node "dora" .active 0 1)) := by
    decide +kernel
  obtain ⟨hactive, hvaults, hnetwork, hjoining, hends, hdora⟩ := h
  exact ⟨eq_ok_of_toOption hactive, eq_ok_of_toOption hvaults, eq_ok_of_toOption hnetwork,
    eq_ok_of_toOption hjoining, eq_ok_of_toOption hends, eq_ok_of_toOption hdora⟩

theorem chambered_active : Nodes.active chambered = .ok assembly := chambered_reads.1

theorem chambered_vaults : Vaults.asgards .active chambered = .ok [chamber] := chambered_reads.2.1

theorem chambered_network : NetworkState.get chambered = .ok .initial := chambered_reads.2.2.1

theorem chambered_idle : NetworkState.isEnding chambered = .ok false := by
  unfold NetworkState.isEnding
  rw [chambered_network]
  rfl

theorem assembly_members :
    ∀ n ∈ assembly, ∃ w ∈ [chamber], ∃ k ∈ w.members, n.vaultKey = some k := by
  decide

theorem chamber_keys : memberKeys [chamber] = chamber.members := by
  have hsorted : chamber.members.Pairwise (fun a b => decide (a.text ≤ b.text) = true) ∧
      chamber.members.eraseDups = chamber.members := by
    decide +kernel
  unfold memberKeys
  rw [List.flatMap_singleton, List.mergeSort_of_pairwise hsorted.1, hsorted.2]

/-- Four nodes remain, which is enough. -/
theorem chambered_proceeds : Proceeds chambered ⟨[], assembly.take 3⟩ := by
  obtain ⟨-, -, -, hjoining, hends, -⟩ := chambered_reads
  have hleaving : assembly.filter (leaves chamber.members) = assembly.take 3 := by decide
  refine ⟨Query.bind_eq_ok.2 ⟨[chamber], chambered_vaults, ?_⟩, hends⟩
  refine Query.bind_eq_ok.2 ⟨assembly, chambered_active, ?_⟩
  rw [chamber_keys, hleaving]
  exact Query.bind_eq_ok.2 ⟨_, hjoining, rfl⟩

def noRewards : Bond.RewardRound := ⟨1, 0, 0, 0⟩

theorem chambered_rewards :
    Bond.payRewards chambered = assembly.forM (Bond.payNode noRewards) chambered := by
  have hbonds : assembly.map (·.bond) = List.replicate 7 0 := rfl
  have hcap : Bond.cap assembly = 0 := by
    unfold Bond.cap
    rw [hbonds, List.mergeSort_of_pairwise (by decide)]
    rfl
  have hround : Bond.rewardRound assembly 0 = .ok noRewards := by
    unfold Bond.rewardRound
    rw [hcap]
    rfl
  rw [Bond.payRewards_run chambered_active hround chambered_network]
  exact congrArg (fun r => assembly.forM (Bond.payNode r) chambered) (rfl : _ = noRewards)

/-- The end of a block for the assembly, in which nothing is left to be sorted. -/
def dismissal : Action (List PowerUpdate) := do
  let _ ← attempt (assembly.forM (Bond.payNode noRewards))
  moveAll [] ⟨[], assembly.take 3⟩

theorem chambered_end : endBlock [] chambered = dismissal chambered := by
  have hpaid : attempt Bond.payRewards chambered =
      attempt (assembly.forM (Bond.payNode noRewards)) chambered := by
    unfold attempt
    rw [chambered_rewards]
  rw [endBlock_of_proceeds chambered_idle chambered_proceeds rfl, apply_eq, dismissal, bind_run,
    bind_run, hpaid]

/-- The four others remain. -/
theorem chambered_dismissed :
    ∃ updates t after alva dora, endBlock [] chambered = (.ok updates, t) ∧
      NetworkState.isEnding t = .ok false ∧ Nodes.active t = .ok after ∧
      missing assembly after = assembly.take 3 ∧ Vaults.asgards .active t = .ok [chamber] ∧
      (Nodes.holding? (Fixture.key "alva") t = .ok (some alva) ∧ alva.status = .disabled) ∧
      Nodes.holding? (Fixture.key "dora") t = .ok (some dora) := by
  have hrun : (dismissal chambered).1.isOk = true ∧
      (NetworkState.isEnding (dismissal chambered).2).toOption = some false ∧
      (Nodes.active (dismissal chambered).2).toOption.map (missing assembly) =
        some (assembly.take 3) ∧
      (Vaults.asgards .active (dismissal chambered).2).toOption = some [chamber] ∧
      (Nodes.holding? (Fixture.key "alva") (dismissal chambered).2).toOption.join.map
        (·.status) = some .disabled ∧
      (Nodes.holding? (Fixture.key "dora") (dismissal chambered).2).toOption.join.isSome =
        true := by
    decide +kernel
  rw [chambered_end]
  generalize dismissal chambered = x at hrun
  obtain ⟨hok, hidle, hafter, hvaults, halva, hdora⟩ := hrun
  obtain ⟨e | updates, t⟩ := x
  · cases hok
  obtain ⟨after, hafter, hmissing⟩ := Option.map_eq_some_iff.1 hafter
  obtain ⟨alva, halva, hstatus⟩ := Option.map_eq_some_iff.1 halva
  obtain ⟨dora, hdora⟩ := Option.isSome_iff_exists.1 hdora
  exact ⟨updates, t, after, alva, dora, rfl, eq_ok_of_toOption hidle, eq_ok_of_toOption hafter,
    hmissing, eq_ok_of_toOption hvaults,
    ⟨eq_ok_of_toOption (Option.join_eq_some_iff.1 halva), hstatus⟩,
    eq_ok_of_toOption (Option.join_eq_some_iff.1 hdora)⟩

/-! ## Who leaves -/

/-- While all active nodes are in active vaults, the end of a block takes exactly the forced ones
out, or none if it is refused or ragnarok begins. At a positive height the network's record tells
afterwards whether it has begun. -/
theorem missing_forced {r : Except Failure (List PowerUpdate)} {after : List Node}
    (hs : s.NodesComplete) (hidle : NetworkState.isEnding s = .ok false)
    (hpresent : Nodes.active s = .ok present) (hvaults : Vaults.asgards .active s = .ok vaults)
    (hmembers : ∀ n ∈ present, ∃ w ∈ vaults, ∃ k ∈ w.members, n.vaultKey = some k)
    (h : endBlock engineKeys s = (r, t)) (hfault : ∀ f, r ≠ .error (.fault f))
    (hafter : Nodes.active t = .ok after) :
    (∀ e, r = .error (.refused e) → missing present after = []) ∧
      (BeginsRagnarok engineKeys s → missing present after = []) ∧
      (∀ updates, r = .ok updates → ¬ BeginsRagnarok engineKeys s →
        missing present after = present.filter (·.forcedToLeave)) ∧
      (∀ updates, r = .ok updates → 0 < s.height → s.phase.height = 0 →
        (BeginsRagnarok engineKeys s ↔ NetworkState.isEnding t = .ok true)) ∧
      ((∃ c, Proceeds s c) →
        (∃ updates, r = .ok updates) ∧ NetworkState.isEnding t = .ok false ∧
          missing present after = present.filter (·.forcedToLeave)) ∧
      ((∀ c, ¬ Proceeds s c) →
        ((∃ e, r = .error (.refused e)) ∨ BeginsRagnarok engineKeys s) ∧
          missing present after = []) := by
  -- A tick of ragnarok changes no standing, whatever became of it.
  have hbegun : BeginsRagnarok engineKeys s → missing present after = [] := fun hbegins =>
    missing_of_same hs hpresent (ticked_viewed hs.viewed (hbegins.symm.trans h)) hafter
  have hends : ∀ updates, r = .ok updates → 0 < s.height → s.phase.height = 0 →
      BeginsRagnarok engineKeys s → NetworkState.isEnding t = .ok true := by
    rintro updates rfl hheight hzero hbegins
    rw [isEnding_run, phase_of_begins hbegins hzero h, decide_eq_true hheight]
  rcases endBlock_cases hs hidle h hfault with ⟨c, hproceeds, ⟨updates, rfl⟩, hphase, ht⟩ |
    ⟨c, hchanges, hbegins, hbegan, ht⟩ | ⟨⟨e, rfl⟩, rfl, hstops⟩
  · have hforced : missing present after = present.filter (·.forcedToLeave) := by
      refine List.filter_congr fun n hn => ?_
      obtain ⟨w, hw, k, hk, hkey⟩ := hmembers n hn
      have hactive := turned_active hs hproceeds.1 hvaults hpresent hn hkey
        (mem_memberKeys.2 ⟨w, hw, hk⟩)
      have hmissing := mem_missing_iff ht hafter ((Nodes.mem_active hs hpresent).1 hn).1
      rw [ne_eq, hactive, Bool.not_eq_false] at hmissing
      exact Bool.eq_iff_iff.2 (decide_eq_true_iff.trans hmissing)
    have hidle' : NetworkState.isEnding t = .ok false := by
      rw [isEnding_run, hphase, ← isEnding_run, hidle]
    refine ⟨nofun, hbegun, fun _ _ _ => hforced, fun us hus hheight hzero => ?_,
      fun _ => ⟨⟨updates, rfl⟩, hidle', hforced⟩, fun hstops => absurd hproceeds (hstops c)⟩
    exact ⟨hends us hus hheight hzero, fun hending => nomatch hidle'.symm.trans hending⟩
  · have hsame := missing_of_same hs hpresent ht hafter
    refine ⟨fun _ _ => hsame, hbegun, fun _ _ hnot => absurd hbegan hnot,
      fun us hus hheight hzero => ⟨hends us hus hheight hzero, fun _ => hbegan⟩, ?_,
      fun _ => ⟨.inr hbegan, hsame⟩⟩
    rintro ⟨d, hd⟩
    cases hchanges.symm.trans hd.1
    cases hbegins.symm.trans hd.2
  · have hsame := missing_of_same hs hpresent hs.viewed hafter
    exact ⟨fun _ _ => hsame, hbegun, nofun, nofun, fun ⟨c, hc⟩ => absurd hc (hstops c),
      fun _ => ⟨.inl ⟨e, rfl⟩, hsame⟩⟩

/-- Ragnarok does not begin, and the banned are those that leave. -/
theorem banned_leave :
    ∃ updates t after, endBlock [] chambered = (.ok updates, t) ∧
      NetworkState.isEnding t = .ok false ∧ Nodes.active t = .ok after ∧
      missing assembly after = assembly.take 3 := by
  obtain ⟨updates, t, after, -, -, h, hidle, hafter, -⟩ := chambered_dismissed
  obtain ⟨-, -, hforced, hbegins, -⟩ := missing_forced chambered_complete chambered_idle
    chambered_active chambered_vaults assembly_members h nofun hafter
  refine ⟨updates, t, after, h, hidle, hafter, hforced updates rfl fun hbegan => ?_⟩
  have hending := (hbegins updates rfl (by decide +kernel) (by decide +kernel)).1 hbegan
  cases hidle.symm.trans hending

/-- Three of seven leave at once, which is more than a third. -/
theorem assembly_loses_three :
    ∃ updates t after, chambered.NodesComplete ∧ NetworkState.isEnding chambered = .ok false ∧
      Nodes.active chambered = .ok assembly ∧ Vaults.asgards .active chambered = .ok [chamber] ∧
      (∀ n ∈ assembly, ∃ k ∈ chamber.members, n.vaultKey = some k) ∧
      endBlock [] chambered = (.ok updates, t) ∧ NetworkState.isEnding t = .ok false ∧
      Nodes.active t = .ok after ∧ assembly.length / 3 < (missing assembly after).length := by
  obtain ⟨updates, t, after, -, -, h, hends, hafter, hmissing, -⟩ := chambered_dismissed
  refine ⟨updates, t, after, chambered_complete, chambered_idle, chambered_active,
    chambered_vaults, by decide, h, hends, hafter, ?_⟩
  rw [hmissing]
  decide

/-! ## Who stays -/

/-- Whoever holds the key of a member after the end of a block held it before, and is active unless
disabled before or forced out. Where ragnarok begins, no status changes. -/
theorem members_settle {updates : List PowerUpdate} {w : Vault} (hs : s.NodesComplete)
    (hidle : NetworkState.isEnding s = .ok false)
    (h : endBlock engineKeys s = (.ok updates, t))
    (hvaults : Vaults.asgards .active t = .ok vaults) (hw : w ∈ vaults) (hk : k ∈ w.members)
    (hn : Nodes.holding? k t = .ok (some n)) :
    ∃ m, Nodes.holding? k s = .ok (some m) ∧ m.address = n.address ∧
      ((∃ c, changes s = .ok c ∧ endsNow c s = .ok false) ∧ n.status = memberStatus m ∨
        (∃ c, changes s = .ok c ∧ endsNow c s = .ok true) ∧ n.status = m.status) := by
  have hsame : Vaults.asgards .active t = Vaults.asgards .active s :=
    Vaults.asgards_congr fun _ hkey =>
      ((endBlock_confined engineKeys).changes h).get?_eq hkey (by decide)
  rcases endBlock_cases hs hidle h nofun with ⟨c, hproceeds, -, -, ht⟩ |
    ⟨c, hchanges, hends, -, ht⟩ | ⟨⟨e, hrefused⟩, -⟩
  · obtain ⟨m, hm, haddress, hstanding⟩ := held_before hs ht (turned_keys c) hn
    refine ⟨m, hm, haddress, .inl ⟨⟨c, hproceeds⟩, ?_⟩⟩
    have hmember := turned_member hs hproceeds.1 (hsame ▸ hvaults) hm
      (mem_memberKeys.2 ⟨w, hw, hk⟩)
    exact (congrArg Standing.status hstanding).trans hmember
  · obtain ⟨m, hm, haddress, hstanding⟩ :=
      held_before (g := fun _ x => x) hs (viewed_unchanged ht) (fun _ _ => rfl) hn
    exact ⟨m, hm, haddress, .inr ⟨⟨c, hchanges, hends⟩, congrArg Standing.status hstanding⟩⟩
  · cases hrefused

/-- Dora, whom nobody forces to leave, stays. -/
theorem dora_stays :
    ∃ updates t n, endBlock [] chambered = (.ok updates, t) ∧
      Nodes.holding? (Fixture.key "dora") t = .ok (some n) ∧ n.status = .active := by
  obtain ⟨updates, t, -, -, n, h, -, -, -, hvaults, -, hn⟩ := chambered_dismissed
  refine ⟨updates, t, n, h, hn, ?_⟩
  obtain ⟨-, -, -, -, -, hheld⟩ := chambered_reads
  obtain ⟨m, hm, -, ⟨-, hstatus⟩ | ⟨⟨c, hchanges, hends⟩, -⟩⟩ :=
    members_settle chambered_complete chambered_idle h hvaults List.mem_cons_self
      (by decide : Fixture.key "dora" ∈ chamber.members) hn
  · cases hheld.symm.trans hm
    exact hstatus
  · cases chambered_proceeds.1.symm.trans hchanges
    cases chambered_proceeds.2.symm.trans hends

/-- Alva is a member of the chamber and is disabled. -/
theorem alva_disabled :
    ∃ updates t n, NetworkState.isEnding chambered = .ok false ∧
      endBlock [] chambered = (.ok updates, t) ∧ NetworkState.isEnding t = .ok false ∧
      Vaults.asgards .active t = .ok [chamber] ∧ Fixture.key "alva" ∈ chamber.members ∧
      Nodes.holding? (Fixture.key "alva") t = .ok (some n) ∧ n.status ≠ .active := by
  obtain ⟨updates, t, -, n, -, h, hends, -, -, hvaults, ⟨hn, hstatus⟩, -⟩ := chambered_dismissed
  refine ⟨updates, t, n, chambered_idle, h, hends, hvaults, by decide, hn, ?_⟩
  rw [hstatus]
  decide

end Rotation

end LiquidityNet
