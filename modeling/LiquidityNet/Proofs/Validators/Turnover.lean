import LiquidityNet.Proofs.Validators.Roster
import LiquidityNet.Proofs.Validators.Shutdown
import LiquidityNet.Proofs.Validators.Standing

/-!
# What the end of a block makes of the nodes

Members of the active vaults become active, and active nodes leave that are in no vault or are
forced to. Nodes join and leave one after the other, and then those that were ready stand down;
where each node stands in the end depends only on where it stood and on the two lists.
-/

namespace LiquidityNet

open LiquidityNet.Action Ledger

/-- Where a node stands: its status, whether it is forced to leave, and its keys. -/
structure Standing where
  status : NodeStatus
  forced : Bool
  keys : NodeKeys

def Node.standing (n : Node) : Standing := ⟨n.status, n.forcedToLeave, n.keys⟩

theorem Node.standing_moveTo (n : Node) (status : NodeStatus) (height : Height) :
    (n.moveTo status height).standing = { n.standing with status := status } := by
  simp [standing]

namespace Standing

def joined (x : Standing) : Standing := { x with status := .active }

def left (x : Standing) : Standing :=
  { x with status := if x.forced then .disabled else .standby }

def stoodDown (x : Standing) : Standing :=
  if x.status = .ready then { x with status := .standby } else x

theorem joined_joined (x : Standing) : x.joined.joined = x.joined := rfl

theorem left_left (x : Standing) : x.left.left = x.left := rfl

theorem left_joined (x : Standing) : x.joined.left = x.left := rfl

theorem stoodDown_of_ne {x : Standing} (h : x.status ≠ .ready) : x.stoodDown = x := if_neg h

theorem stoodDown_keys (x : Standing) : x.stoodDown.keys = x.keys := by
  unfold stoodDown
  split <;> rfl

theorem stoodDown_joined (x : Standing) : x.joined.stoodDown = x.joined := stoodDown_of_ne nofun

theorem stoodDown_left (x : Standing) : x.left.stoodDown = x.left := by
  refine stoodDown_of_ne ?_
  unfold left
  cases x.forced <;> exact nofun

theorem stoodDown_stoodDown (x : Standing) : x.stoodDown.stoodDown = x.stoodDown := by
  by_cases h : x.status = .ready
  · have hdown : x.stoodDown = { x with status := .standby } := if_pos h
    exact stoodDown_of_ne (by rw [hdown]; exact nofun)
  · rw [stoodDown_of_ne h, stoodDown_of_ne h]

/-- The standing of the node under an address, if there is one. -/
def view : NodeView (Option Standing) := fun o => o.map Node.standing

theorem view_ignoresBonds : view.IgnoresBonds := fun _ _ => rfl

/-- The standings under some addresses are changed. -/
def amended (g : Standing → Standing) (as : List Address) (v : Address → Option Standing) :
    Address → Option Standing :=
  fun a => if a ∈ as then (v a).map g else v a

variable {g : Standing → Standing} {as : List Address} {a : Address}
  {v : Address → Option Standing}

theorem amended_none (h : v a = none) : amended g [a] v = v := by
  funext b
  unfold amended
  split
  · rename_i hb
    rw [List.mem_singleton.1 hb, h]
    rfl
  · rfl

/-- A change that makes no difference the second time may as well be made to each address in
turn. -/
theorem amended_append (hg : ∀ x, g (g x) = g x) :
    amended g (as ++ [a]) v = amended g [a] (amended g as v) := by
  funext b
  unfold amended
  by_cases hb : b = a
  · by_cases has : b ∈ as
    · simp [hb, hb ▸ has, Function.comp_def, hg]
    · simp [hb, hb ▸ has]
  · simp [hb]

end Standing

open Standing

def Ledger.standing? (s : Ledger) (a : Address) : Option Standing := view (s.nodeAt a)

variable {v : Address → Option Standing} {a : Address} {m n : Node} {R : Ledger → Prop}

/-- A found node has the standing of its address, and is complete. -/
theorem Nodes.standing_of_find? {s : Ledger} {found : Option Node} (hs : Viewed view v s)
    (h : Nodes.find? a s = .ok found) :
    found.map Node.standing = v a ∧ ∀ n ∈ found, n.address = a ∧ n.validate = .ok () := by
  rw [← hs.views a]
  cases found with
  | none =>
    have hget : s.get? (Key.node a) = none := Nodes.find?_eq_ok.1 h
    refine ⟨congrArg view (nodeAt_of_absent hget).symm, fun n hn => ?_⟩
    cases hn
  | some n =>
    have hget : s.get? (Key.node a) = some (.node n) := Nodes.find?_eq_ok.1 h
    obtain ⟨k, hk, haddress, hcomplete⟩ := hs.toNodesComplete.node hget
    cases hk
    refine ⟨congrArg view (nodeAt_of_get? hget).symm, fun k hk => ?_⟩
    cases hk
    exact ⟨haddress, hcomplete⟩

/-- A node is stored with the changed standing of its address. -/
theorem Nodes.save_amended {g : Standing → Standing} (hn : n.validate = .ok ())
    (haddress : n.address = a) (hstanding : (v a).map g = some n.standing) :
    (Nodes.save n).Yields (Viewed view v) (fun _ => Viewed view (amended g [a] v)) R := by
  subst haddress
  intro s r t hs hrun
  rw [Nodes.save_run hn] at hrun
  cases hrun
  refine hs.put hn ?_ fun b hb => ?_
  · exact (if_pos (List.mem_singleton.2 rfl)).trans hstanding
  · exact if_neg fun h => hb (List.mem_singleton.1 h)

namespace Rotation

/-- What changes the standing of a found node changes it under the address that was looked up, where
there may be none. -/
theorem found_amended {β : Type} {b : β} {f : Option Node → Action β} {g : Standing → Standing}
    (hnone : f none = pure b)
    (hsome : ∀ n, v n.address = some n.standing → n.validate = .ok () →
      (f (some n)).Yields (Viewed view v) (fun _ => Viewed view (amended g [n.address] v)) R) :
    ((liftM (Nodes.find? a) : Action (Option Node)) >>= f).Yields (Viewed view v)
      (fun _ => Viewed view (amended g [a] v)) R := by
  refine .bind (.read fun s hs => Nodes.find?_ok hs.filed a) fun found => ?_
  refine .known (fun s hs => Nodes.standing_of_find? hs.1 hs.2) fun ⟨hstanding, hfound⟩ => ?_
  refine .restrict (P := Viewed view v) ?_ fun _ hs => hs.1
  cases found with
  | none =>
    rw [hnone, amended_none hstanding.symm]
    exact .pure fun _ hs => hs
  | some n =>
    obtain ⟨rfl, hcomplete⟩ := hfound n rfl
    exact hsome n hstanding.symm hcomplete

theorem emit_viewed (e : Event) :
    (emit e).Yields (Viewed view v) (fun _ => Viewed view v) R :=
  (Viewed.apart [] (.emit e) (by decide)).answered (.emit e)

theorem join_amended (height : Height) (a : Address) :
    (join height a).Yields (Viewed view v) (fun _ => Viewed view (amended joined [a] v)) R := by
  refine found_amended rfl fun n hstanding hcomplete => ?_
  refine .bind (emit_viewed _) fun _ => ?_
  have hcleared := Nodes.clearSlashPoints_confined n.address
  refine .bind ((Viewed.apart _ hcleared (by decide)).answered (.erase _)) fun _ => ?_
  refine .bind (Nodes.save_amended ?_ ?_ ?_) fun _ => .pure fun _ hs => hs
  · exact Node.validate_moveTo hcomplete height (by decide)
  · exact n.moveTo_address .active height
  · rw [hstanding]
    exact congrArg some (n.standing_moveTo .active height).symm

theorem leave_amended (height : Height) (engineKeys : List String) (a : Address) :
    (leave height engineKeys a).Yields (Viewed view v)
      (fun _ => Viewed view (amended left [a] v)) R := by
  refine found_amended rfl fun n hstanding hcomplete => ?_
  refine .bind (emit_viewed _) fun _ => ?_
  let status : NodeStatus := if n.forcedToLeave then .disabled else .standby
  have hstatus : status ≠ .unknown := by
    unfold status
    split <;> decide
  refine .bind (Nodes.save_amended (a := n.address) (g := left) ?_ ?_ ?_) fun _ => ?_
  · exact Node.validate_moveTo hcomplete height hstatus
  · exact n.moveTo_address status height
  · rw [hstanding]
    exact congrArg some (n.standing_moveTo status height).symm
  · have hrecalled := (Recall.request_confined
      { n.moveTo status height with requestedToLeave := false }).attempt
    refine .bind ((Viewed.apart _ hrecalled (by decide)).answered (.attempt _)) fun _ => ?_
    exact .pure fun _ hs => hs

theorem joinAll_amended (height : Height) (ns : List Node) :
    (ns.mapM fun n => join height n.address).Yields (Viewed view v)
      (fun _ => Viewed view (amended joined (ns.map (·.address)) v)) R := by
  refine Action.Yields.mapM_done (f := fun n : Node => join height n.address)
    (I := fun done => Viewed view (amended joined (done.map (·.address)) v))
    (fun n _ done => ?_) []
  rw [List.map_append, List.map_singleton, amended_append joined_joined]
  exact join_amended height n.address

theorem leaveAll_amended (height : Height) (engineKeys : List String) (ns : List Node) :
    (ns.mapM fun n => leave height engineKeys n.address).Yields (Viewed view v)
      (fun _ => Viewed view (amended left (ns.map (·.address)) v)) R := by
  refine Action.Yields.mapM_done (f := fun n : Node => leave height engineKeys n.address)
    (I := fun done => Viewed view (amended left (done.map (·.address)) v))
    (fun n _ done => ?_) []
  rw [List.map_append, List.map_singleton, amended_append left_left]
  exact leave_amended height engineKeys n.address

/-- Only those that are listed as ready are stored anew. -/
theorem standDownAll_amended (height : Height) {ready : List Node}
    (hready : ∀ n ∈ ready, v n.address = some n.standing ∧ n.status = .ready ∧
      n.validate = .ok ()) :
    (ready.forM fun n => Nodes.save (n.moveTo .standby height)).Yields (Viewed view v)
      (fun _ => Viewed view (amended stoodDown (ready.map (·.address)) v)) R := by
  refine Action.Yields.forM_done (f := fun n : Node => Nodes.save (n.moveTo .standby height))
    (I := fun done => Viewed view (amended stoodDown (done.map (·.address)) v))
    (fun n hn done => ?_) []
  obtain ⟨hstanding, hstatus, hcomplete⟩ := hready n hn
  rw [List.map_append, List.map_singleton, amended_append stoodDown_stoodDown]
  refine Nodes.save_amended (Node.validate_moveTo hcomplete height (by decide))
    (n.moveTo_address .standby height) ?_
  have hmoved : n.standing.stoodDown = (n.moveTo .standby height).standing :=
    (if_pos hstatus).trans (n.standing_moveTo .standby height).symm
  rw [← hmoved]
  unfold amended
  split <;> simp [hstanding, stoodDown_stoodDown]

theorem standDown_amended (height : Height) :
    (standDown height).Yields (Viewed view v)
      (fun _ => Viewed view fun a => (v a).map stoodDown) R := by
  refine .bind (.read fun s hs => Nodes.withStatus_ok hs.filed .ready) fun ready => ?_
  refine .known (p := (∀ n ∈ ready, v n.address = some n.standing ∧ n.status = .ready ∧
    n.validate = .ok ()) ∧ amended stoodDown (ready.map (·.address)) v =
      fun a => (v a).map stoodDown) ?_ fun ⟨hready, hall⟩ => ?_
  · rintro s ⟨hs, hread⟩
    refine ⟨fun n hn => ?_, funext fun a => ?_⟩
    · obtain ⟨hshows, hstatus⟩ := Nodes.shows_of_withStatus hs hread n hn
      exact ⟨hshows, hstatus, Nodes.complete_of_withStatus hs.toNodesComplete hread n hn⟩
    · by_cases ha : a ∈ ready.map (·.address)
      · exact if_pos ha
      · -- Whoever is not listed is not ready, and standing down changes nothing.
        refine (if_neg ha).trans ?_
        rw [← hs.views a]
        rcases hnode : s.nodeAt a with _ | n
        · rfl
        · obtain ⟨rfl, hstored⟩ := hs.toNodesComplete.nodeAt_eq_some.1 hnode
          refine congrArg some (stoodDown_of_ne fun hstatus => ha ?_).symm
          exact List.mem_map_of_mem
            ((Nodes.mem_withStatus hs.toNodesComplete hread).2 ⟨hstored, hstatus⟩)
  · rw [← hall]
    exact (standDownAll_amended height hready).restrict fun _ hs => hs.1

/-! ## All changes together -/

/-- Where the end of a block puts a node, given who joins and who leaves. If anybody does, all
others that were ready stand down. -/
def turned (c : Changes) (a : Address) (x : Standing) : Standing :=
  if a ∈ c.leaving.map (·.address) then x.left
  else if a ∈ c.joining.map (·.address) then x.joined
  else if c.joining.isEmpty && c.leaving.isEmpty then x else x.stoodDown

theorem turned_keys (c : Changes) (a : Address) (x : Standing) : (turned c a x).keys = x.keys := by
  unfold turned
  split
  · rfl
  · split
    · rfl
    · split
      · rfl
      · exact stoodDown_keys x

theorem amended_turned {c : Changes} (h : (c.joining.isEmpty && c.leaving.isEmpty) = false) :
    (fun a => (amended left (c.leaving.map (·.address))
      (amended joined (c.joining.map (·.address)) v) a).map stoodDown) =
        fun a => (v a).map (turned c a) := by
  funext a
  unfold amended turned
  rw [h]
  split
  · split <;> simp [Function.comp_def, left_joined, stoodDown_left]
  · split <;> simp [Function.comp_def, stoodDown_joined]

theorem turned_none {c : Changes} (h : (c.joining.isEmpty && c.leaving.isEmpty) = true)
    (a : Address) (x : Standing) : turned c a x = x := by
  obtain ⟨hjoining, hleaving⟩ := Bool.and_eq_true_iff.1 h
  unfold turned
  rw [List.isEmpty_iff.1 hjoining, List.isEmpty_iff.1 hleaving]
  rfl

/-- All changes of statuses, once rewards have been paid. -/
def moveAll (engineKeys : List String) (c : Changes) : Action (List PowerUpdate) := do
  let height ← Ledger.currentHeight
  let joined ← c.joining.mapM fun n => join height n.address
  let left ← c.leaving.mapM fun n => leave height engineKeys n.address
  standDown height
  return joined.flatten ++ left.flatten

theorem apply_eq (engineKeys : List String) (c : Changes) :
    apply engineKeys c = (do
      let _ ← attempt Bond.payRewards
      moveAll engineKeys c) := rfl

/-- The changes are made as a whole; nothing about them can be refused. -/
theorem apply_turned (engineKeys : List String) {c : Changes}
    (h : (c.joining.isEmpty && c.leaving.isEmpty) = false) :
    (apply engineKeys c).Yields (Viewed view v)
      (fun _ => Viewed view fun a => (v a).map (turned c a)) R := by
  rw [← amended_turned h, apply_eq]
  have hpaid : (attempt Bond.payRewards).Keeps (Viewed view v) :=
    (Bond.payRewards_viewed view_ignoresBonds).attempt
  refine .bind (hpaid.answered (.attempt _)) fun _ => ?_
  refine .bind (.read fun s _ => ⟨s.height, rfl⟩) fun height => ?_
  refine .restrict (P := Viewed view v) ?_ fun _ hs => hs.1
  refine .bind (joinAll_amended height c.joining) fun joined => ?_
  refine .bind (leaveAll_amended height engineKeys c.leaving) fun left => ?_
  exact .bind (standDown_amended height) fun _ => .pure fun _ hs => hs

variable {s t : Ledger} {engineKeys : List String}

theorem changes_ok {c : Changes} (h : changes s = .ok c) :
    ∃ vaults present found, Vaults.asgards .active s = .ok vaults ∧
      Nodes.active s = .ok present ∧ (memberKeys vaults).mapM joiner? s = .ok found ∧
      c = ⟨found.filterMap id, present.filter (leaves (memberKeys vaults))⟩ := by
  unfold changes at h
  simp only [Query.refuse_bind] at h
  obtain ⟨vaults, hvaults, h⟩ := Query.bind_eq_ok.1 h
  obtain ⟨-, h⟩ := Query.unless_eq_ok.1 h
  obtain ⟨present, hpresent, h⟩ := Query.bind_eq_ok.1 h
  obtain ⟨found, hfound, h⟩ := Query.bind_eq_ok.1 h
  cases h
  exact ⟨vaults, present, found, hvaults, hpresent, hfound, rfl⟩

/-- It is clear who joins and who leaves, and ragnarok does not begin. -/
def Proceeds (s : Ledger) (c : Changes) : Prop := changes s = .ok c ∧ endsNow c s = .ok false

/-- The end of the block is a tick of ragnarok. -/
def BeginsRagnarok (engineKeys : List String) (s : Ledger) : Prop :=
  endBlock engineKeys s = (do Ragnarok.tick; return [] : Action (List PowerUpdate)) s

theorem endBlock_of_proceeds {c : Changes} (hidle : NetworkState.isEnding s = .ok false)
    (h : Proceeds s c) (hsome : (c.joining.isEmpty && c.leaving.isEmpty) = false) :
    endBlock engineKeys s = apply engineKeys c s := by
  unfold endBlock
  rw [read_bind_run, hidle]
  simp only [Bool.false_eq_true, if_false]
  rw [read_bind_run, h.1]
  dsimp only
  rw [read_bind_run, h.2]
  simp only [hsome, Bool.false_eq_true, if_false]

/-- A tick of ragnarok changes no standing. -/
theorem ticked_viewed {r : Except Failure (List PowerUpdate)} (hs : Viewed view v s)
    (h : (do Ragnarok.tick; return [] : Action (List PowerUpdate)) s = (r, t)) :
    Viewed view v t := by
  have hticked : (do Ragnarok.tick; return [] : Action (List PowerUpdate)).Keeps (Viewed view v) :=
    (Ragnarok.tick_viewed view_ignoresBonds).bind fun _ => .pure fun _ ht => ht
  have ht := hticked s r t hs h
  cases r <;> exact ht

theorem phase_of_begins {updates : List PowerUpdate} (hbegins : BeginsRagnarok engineKeys s)
    (hzero : s.phase.height = 0) (h : endBlock engineKeys s = (.ok updates, t)) :
    t.phase.height = s.height := by
  obtain ⟨⟨⟩, u, htick, hdone⟩ := Action.bind_eq_ok.1 (hbegins.symm.trans h)
  cases hdone
  exact Ragnarok.phase_of_firstTick hzero htick

theorem refused_of_faultless {α : Type} {r : Except Failure α} {e : Failure}
    (hfault : ∀ f, r ≠ .error (.fault f)) (h : r = .error e) : ∃ e, r = .error (.refused e) := by
  cases e with
  | refused e => exact ⟨e, h⟩
  | fault f => exact absurd h (hfault f)

/-- Before ragnarok the end of a block makes all changes, or begins ragnarok and changes no
standing, or is refused before it does anything. -/
theorem endBlock_cases {r : Except Failure (List PowerUpdate)} (hs : s.NodesComplete)
    (hidle : NetworkState.isEnding s = .ok false) (h : endBlock engineKeys s = (r, t))
    (hfault : ∀ f, r ≠ .error (.fault f)) :
    (∃ c, Proceeds s c ∧ (∃ updates, r = .ok updates) ∧ t.phase = s.phase ∧
      Viewed view (fun a => (s.standing? a).map (turned c a)) t) ∨
    (∃ c, changes s = .ok c ∧ endsNow c s = .ok true ∧ BeginsRagnarok engineKeys s ∧
      Viewed view s.standing? t) ∨
    ((∃ e, r = .error (.refused e)) ∧ t = s ∧ ∀ c, ¬ Proceeds s c) := by
  have hrun := h
  unfold endBlock at h
  rw [read_bind_run, hidle] at h
  rcases read_bind_cases h with ⟨e, hchanges, hr, rfl⟩ | ⟨c, hchanges, h⟩
  · refine .inr (.inr ⟨refused_of_faultless hfault hr, rfl, fun c hc => ?_⟩)
    cases hchanges.symm.trans hc.1
  rcases read_bind_cases h with ⟨e, hends, hr, rfl⟩ | ⟨ends, hends, h⟩
  · refine .inr (.inr ⟨refused_of_faultless hfault hr, rfl, fun d hd => ?_⟩)
    cases hchanges.symm.trans hd.1
    cases hends.symm.trans hd.2
  cases ends with
  | true =>
    refine .inr (.inl ⟨c, hchanges, hends, hrun.trans h.symm, ?_⟩)
    exact ticked_viewed hs.viewed h
  | false =>
    refine .inl ⟨c, ⟨hchanges, hends⟩, ?_⟩
    rcases hnone : c.joining.isEmpty && c.leaving.isEmpty with _ | _ <;>
      simp only [hnone, Bool.false_eq_true, if_false, if_true] at h
    · have ht := apply_turned (R := fun _ => False) engineKeys hnone s r t hs.viewed h
      have hphase := (oversees_phase s.phase).applyChanges engineKeys c s r t rfl h
      rcases r with (e | f) | updates
      · exact ht.elim
      · exact absurd rfl (hfault f)
      · exact ⟨⟨updates, rfl⟩, hphase, ht⟩
    · cases h
      refine ⟨⟨[], rfl⟩, rfl, hs, fun a => ?_⟩
      have hsame : turned c a = id := funext fun x => turned_none hnone a x
      rw [hsame, Option.map_id]
      rfl

end Rotation

end LiquidityNet
