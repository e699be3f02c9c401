import LiquidityNet.Proofs.Validators.Seats
import LiquidityNet.Proofs.Validators.Turnover

/-!
# The end of a block and the engine's validators

Whoever joins or leaves the active nodes at the end of a block is told to the engine, and nobody
else is. The keys of nodes never change, so the engine's validators are the active nodes again once
it has taken the updates.
-/

namespace LiquidityNet

open LiquidityNet.Action Ledger

namespace Rotation.PowerUpdate

/-- The engine's validators after an update. Power zero takes a key out, any other puts it in. -/
def enact (engine : List String) (u : PowerUpdate) : List String :=
  if u.power = 0 then engine.filter (· ≠ u.key) else engine.insert u.key

@[simp] theorem mem_enact_active {engine : List String} {k key : String} :
    k ∈ enact engine ⟨key, activePower⟩ ↔ k = key ∨ k ∈ engine := by
  show k ∈ engine.insert key ↔ _
  exact List.mem_insert_iff

@[simp] theorem mem_enact_zero {engine : List String} {k key : String} :
    k ∈ enact engine ⟨key, 0⟩ ↔ k ∈ engine ∧ k ≠ key := by
  show k ∈ engine.filter (· ≠ key) ↔ _
  rw [List.mem_filter, decide_eq_true_iff]

end Rotation.PowerUpdate

/-- The second list of keys has what the first one has, but the key of the node exactly if the node
is active. -/
def Node.Updates (m : Node) (engine updated : List String) : Prop :=
  ∀ k, k ∈ updated ↔
    m.seat? = some ⟨k, true⟩ ∨ k ∈ engine ∧ ∀ isActive, m.seat? ≠ some ⟨k, isActive⟩

namespace Ledger

/-- No key belongs to two addresses. -/
def Distinct (keys : Address → Option String) : Prop :=
  ∀ a b k, keys a = some k → keys b = some k → a = b

/-- The keys of the seats are given, and the engine counts those of the active nodes among its
validators. -/
structure Synced (keys : Address → Option String) (engine : List String) (s : Ledger) : Prop
    extends NodesComplete s where
  keys : ∀ a, (s.seat? a).map Seat.key = keys a
  engine : ∀ k, k ∈ engine ↔ ∃ a, s.seat? a = some ⟨k, true⟩

variable {keys : Address → Option String} {engine : List String} {s t : Ledger} {m n : Node}

theorem Synced.of_seated (hs : Synced keys engine s) (ht : Seated s.seat? t) :
    Synced keys engine t where
  toNodesComplete := ht.toNodesComplete
  keys := by simpa only [seat?, ht.views] using hs.keys
  engine := by simpa only [seat?, ht.views] using hs.engine

/-- What leaves all seats as they are needs no update. -/
theorem Synced.kept {α : Type} {body : Action α} (h : ∀ v, body.Keeps (Seated v)) :
    body.Keeps (Synced keys engine) := by
  intro s r t hs hrun
  have ht := h s.seat? s r t hs.toNodesComplete.seated hrun
  cases r <;> exact hs.of_seated ht

theorem Synced.yields {α : Type} {body : Action α}
    (h : ∀ v, body.Yields (Seated v) (fun _ => Seated v) fun _ => False) :
    body.Yields (Synced keys engine) (fun _ => Synced keys engine) fun _ => False := by
  intro s r t hs hrun
  have ht := h s.seat? s r t hs.toNodesComplete.seated hrun
  rcases r with (e | f) | a
  · exact ht
  · trivial
  · exact hs.of_seated ht

theorem Synced.not_mem_empty (hs : Synced keys engine s) : "" ∉ engine := by
  intro hmem
  obtain ⟨a, ha⟩ := (hs.engine "").1 hmem
  obtain ⟨n, -, -, hseat⟩ := hs.toNodesComplete.seat?_eq_some.1 ha
  exact (Node.seat?_eq_some.1 hseat).1 rfl

/-- A node that is stored anew with its key changes at most whether that key counts. -/
theorem Synced.stored (hs : Synced keys engine s)
    (hdistinct : Distinct keys)
    (hn : s.get? (Key.node m.address) = some (.node n)) (hm : m.validate = .ok ())
    (hkey : m.consensusKey = n.consensusKey) {updated : List String}
    (hupdated : m.Updates engine updated) :
    Synced keys updated (s.putRecord (Key.node m.address) (.node m)) := by
  have hsame : s.seat? m.address = n.seat? := seat?_of_get? hn
  have ht := hs.toNodesComplete.seated.stored hm
  refine ⟨ht.toNodesComplete, fun a => ?_, fun k => ?_⟩
  · rw [seat?, ht.views a]
    split
    · rename_i ha
      show m.seat?.map Seat.key = _
      rw [ha, ← hs.keys, hsame, Node.key_seat?, Node.key_seat?, hkey]
    · exact hs.keys a
  · rw [hupdated k, hs.engine]
    constructor
    · rintro (hseat | ⟨⟨a, ha⟩, hother⟩)
      · exact ⟨m.address, (ht.views _).trans ((if_pos rfl).trans hseat)⟩
      · refine ⟨a, (ht.views a).trans ((if_neg ?_).trans ha)⟩
        rintro rfl
        obtain ⟨hne, hk, -⟩ := Node.seat?_eq_some.1 (hsame.symm.trans ha)
        exact hother m.isActive (Node.seat?_eq_some.2 ⟨hne, hkey.trans hk, rfl⟩)
    · rintro ⟨a, ha⟩
      rw [seat?, ht.views a] at ha
      split at ha
      · exact .inl ha
      · rename_i hne
        refine .inr ⟨⟨a, ha⟩, fun isActive hseat => hne ?_⟩
        obtain ⟨hk, hown, -⟩ := Node.seat?_eq_some.1 hseat
        -- Another node with the key of this one would be this one.
        refine hdistinct a m.address k ?_ ?_
        · rw [← hs.keys, ha]
          rfl
        · rw [← hs.keys, hsame, Node.key_seat?, ← hkey, hown]
          exact if_neg hk

end Ledger

namespace Rotation

variable {keys : Address → Option String} {engine engineKeys : List String}

/-- The engine that takes the updates an action gives is synced again; the action is refused only in
`R`. -/
abbrev Reports (keys : Address → Option String) (engine : List String) (R : Ledger → Prop)
    (body : Action (List PowerUpdate)) : Prop :=
  body.Yields (Synced keys engine)
    (fun updates => Synced keys (updates.foldl PowerUpdate.enact engine)) R

/-- A loop reports if each of its steps does to any engine. -/
theorem mapM_reports {α : Type} {f : α → Action (List PowerUpdate)} {as : List α} {e : List String}
    {R : Ledger → Prop} (hf : ∀ a ∈ as, ∀ e, Reports keys e R (f a)) :
    (as.mapM f).Yields (Synced keys e)
      (fun parts => Synced keys (parts.flatten.foldl PowerUpdate.enact e)) R := by
  refine Action.Yields.mapM (I := fun parts => Synced keys
    (parts.flatten.foldl PowerUpdate.enact e)) (fun a ha parts => ?_) []
  simpa only [List.flatten_append, List.foldl_append, List.flatten_singleton] using hf a ha _

/-- A synced ledger with a node that was found. -/
def Found (keys : Address → Option String) (engine : List String) (a : Address) (n : Node)
    (s : Ledger) : Prop :=
  Synced keys engine s ∧ s.get? (Key.node a) = some (.node n)

theorem found_apart {α : Type} {body : Action α} (Ts : List Table) (h : body.Confined Ts)
    (hnodes : .nodes ∉ Ts) (a : Address) (n : Node) : body.Keeps (Found keys engine a n) := by
  refine .of_confined h fun s t hchanges hs => ⟨?_, ?_⟩
  · exact hs.1.of_seated (hs.1.toNodesComplete.seated.of_changes hchanges hnodes)
  · rw [hchanges.get?_eq (Table.ofKey?_node a) hnodes]
    exact hs.2

theorem emit_found (e : Event) (a : Address) (n : Node) :
    (emit e).Yields (Found keys engine a n) (fun _ => Found keys engine a n) fun _ => False :=
  (found_apart [] (.emit e) (by decide) a n).answered (.emit e)

theorem contains_of_found {a : Address} {n : Node} {s : Ledger} (hs : Found keys engine a n s)
    (hempty : "" ∉ engineKeys) (hknown : ∀ k, keys a = some k → k ∈ engineKeys) :
    engineKeys.contains n.consensusKey = true ↔ n.consensusKey ≠ "" := by
  rw [List.contains_iff_mem]
  constructor
  · intro hmem hkey
    exact hempty (hkey ▸ hmem)
  · intro hkey
    refine hknown _ ?_
    rw [← hs.1.keys a, seat?_of_get? hs.2, Node.key_seat?, if_neg hkey]

theorem updates_none {m : Node} (hempty : m.consensusKey = "") : m.Updates engine engine := by
  intro k
  have hseat : m.seat? = none := if_pos hempty
  simp [hseat]

/-- The update for a node that becomes active brings its key in. -/
theorem updates_joined {m : Node} (hactive : m.isActive = true) :
    m.Updates engine ((if m.consensusKey = "" then [] else
      [⟨m.consensusKey, activePower⟩]).foldl PowerUpdate.enact engine) := by
  by_cases hempty : m.consensusKey = ""
  · rw [if_pos hempty]
    exact updates_none hempty
  · intro k
    have hseat : m.seat? = some ⟨m.consensusKey, true⟩ :=
      Node.seat?_eq_some.2 ⟨hempty, rfl, hactive⟩
    rw [if_neg hempty, hseat, List.foldl_cons, List.foldl_nil, PowerUpdate.mem_enact_active]
    by_cases hk : k = m.consensusKey
    · simp [hk]
    · simp [hk, Ne.symm hk]

/-- The update for a node that ceases to be active takes its key out. -/
theorem updates_left {m : Node} (hidle : m.isActive = false)
    (hknown : engineKeys.contains m.consensusKey = true ↔ m.consensusKey ≠ "") :
    m.Updates engine ((if engineKeys.contains m.consensusKey then
      [⟨m.consensusKey, 0⟩] else []).foldl PowerUpdate.enact engine) := by
  by_cases hempty : m.consensusKey = ""
  · rw [if_neg fun h => hknown.1 h hempty]
    exact updates_none hempty
  · intro k
    have hseat : m.seat? = some ⟨m.consensusKey, false⟩ :=
      Node.seat?_eq_some.2 ⟨hempty, rfl, hidle⟩
    rw [if_pos (hknown.2 hempty), hseat, List.foldl_cons, List.foldl_nil,
      PowerUpdate.mem_enact_zero]
    by_cases hk : k = m.consensusKey
    · simp [hk]
    · simp [hk, Ne.symm hk]

/-- Nodes that have to leave are active, and the engine counts their keys. -/
theorem known_of_changes {s : Ledger} {c : Changes} (hs : Synced keys engine s)
    (h : changes s = .ok c) :
    "" ∉ engine ∧ ∀ n ∈ c.leaving, ∀ k, keys n.address = some k → k ∈ engine := by
  refine ⟨hs.not_mem_empty, fun n hn k hk => (hs.engine k).2 ⟨n.address, ?_⟩⟩
  obtain ⟨vaults, active, found, -, hactive, -, rfl⟩ := changes_ok h
  obtain ⟨hshows, hstatus⟩ := Nodes.shows_of_withStatus hs.toNodesComplete.seated hactive n
    (List.mem_filter.1 hn).1
  have hseat : s.seat? n.address = n.seat? := hshows
  rw [← hs.keys, hseat] at hk
  obtain ⟨seat, hsome, rfl⟩ := Option.map_eq_some_iff.1 hk
  obtain ⟨hne, hkey, -⟩ := Node.seat?_eq_some.1 hsome
  refine hseat.trans (Node.seat?_eq_some.2 ⟨hne, hkey, ?_⟩)
  rw [Node.isActive_eq, hstatus]
  rfl

section

variable (hdistinct : Distinct keys)
include hdistinct

/-- Storing a found node anew brings the engine to what the node's seat then says. -/
theorem save_found {a : Address} {m n : Node} (haddress : m.address = n.address)
    (hoperator : m.operator = n.operator) (hkey : m.consensusKey = n.consensusKey)
    (hstatus : m.status ≠ .unknown) {updated : List String}
    (hupdated : m.Updates engine updated) :
    (Nodes.save m).Yields (Found keys engine a n) (fun _ => Synced keys updated)
      fun _ => False := by
  rintro s r t ⟨hs, hn⟩ hrun
  obtain ⟨k, hk, rfl, hcomplete⟩ := hs.toNodesComplete.node hn
  cases hk
  have hvalid : m.validate = .ok () := Node.validate_congr hcomplete haddress hoperator hstatus
  rw [Nodes.save_run hvalid] at hrun
  cases hrun
  exact hs.stored hdistinct (haddress ▸ hn) hvalid hkey hupdated

theorem join_synced (height : Height) (a : Address) :
    Reports keys engine (fun _ => False) (join height a) := by
  refine .bind (.read fun s hs => Nodes.find?_ok hs.filed a) fun found => ?_
  cases found with
  | none => exact .pure fun s hs => hs.1
  | some n =>
    let m : Node := { n.moveTo .active height with leaveScore := 0, requestedToLeave := false }
    have hkey : m.consensusKey = n.consensusKey := n.moveTo_consensusKey .active height
    have hstatus : m.status = .active := n.moveTo_status .active height
    have hsaved : (Nodes.save m).Yields (Found keys engine a n)
        (fun _ => Synced keys ((if m.consensusKey = "" then [] else
          [⟨m.consensusKey, activePower⟩]).foldl PowerUpdate.enact engine)) fun _ => False := by
      refine save_found hdistinct (m := m) (n.moveTo_address .active height)
        (n.moveTo_operator .active height) hkey ?_ (updates_joined ?_)
      · rw [hstatus]
        decide
      · rw [Node.isActive_eq, hstatus]
        rfl
    rw [hkey] at hsaved
    have hcleared : (Nodes.clearSlashPoints n.address).Keeps (Found keys engine a n) :=
      found_apart _ (Nodes.clearSlashPoints_confined _) (by decide) a n
    refine .restrict (P := Found keys engine a n) ?_ fun s hs => ⟨hs.1, Nodes.find?_eq_ok.1 hs.2⟩
    refine .bind (emit_found _ a n) fun _ => .bind (hcleared.answered (.erase _)) fun _ => ?_
    exact hsaved.bind fun _ => .pure fun s hs => hs

/-- The engine is asked to take out the keys that it had when the block began; a node that was
active then has such a key or none. -/
theorem leave_synced (height : Height) {a : Address} (hempty : "" ∉ engineKeys)
    (hknown : ∀ k, keys a = some k → k ∈ engineKeys) :
    Reports keys engine (fun _ => False) (leave height engineKeys a) := by
  refine .bind (.read fun s hs => Nodes.find?_ok hs.filed a) fun found => ?_
  cases found with
  | none => exact .pure fun s hs => hs.1
  | some n =>
    refine .restrict (P := Found keys engine a n) ?_ fun s hs => ⟨hs.1, Nodes.find?_eq_ok.1 hs.2⟩
    refine .known (fun s hs => contains_of_found hs hempty hknown) fun hcontained => ?_
    let status : NodeStatus := if n.forcedToLeave then .disabled else .standby
    let m : Node := { n.moveTo status height with requestedToLeave := false }
    have hkey : m.consensusKey = n.consensusKey := n.moveTo_consensusKey status height
    have hstatus : m.status = .disabled ∨ m.status = .standby := by
      have hmoved : m.status = status := n.moveTo_status status height
      rw [hmoved]
      by_cases hforced : n.forcedToLeave = true
      · exact .inl (if_pos hforced)
      · exact .inr (if_neg hforced)
    have hsaved : (Nodes.save m).Yields (Found keys engine a n)
        (fun _ => Synced keys ((if engineKeys.contains m.consensusKey then
          [⟨m.consensusKey, 0⟩] else []).foldl PowerUpdate.enact engine)) fun _ => False := by
      refine save_found hdistinct (m := m) (n.moveTo_address status height)
        (n.moveTo_operator status height) hkey ?_ (updates_left ?_ (hkey ▸ hcontained))
      · rcases hstatus with h | h <;> rw [h] <;> decide
      · rw [Node.isActive_eq]
        rcases hstatus with h | h <;> rw [h] <;> rfl
    have hrecalled : ∀ updated, (attempt (Recall.request m)).Keeps (Synced keys updated) :=
      fun updated => Synced.kept fun v =>
        Viewed.apart _ (Recall.request_confined m).attempt (by decide)
    refine .bind (emit_found _ a n) fun _ => hsaved.bind fun _ => ?_
    exact ((hrecalled _).answered (.attempt _)).bind fun _ => .pure fun s hs => hs

theorem apply_synced {c : Changes} (hempty : "" ∉ engineKeys)
    (hleaving : ∀ n ∈ c.leaving, ∀ k, keys n.address = some k → k ∈ engineKeys) :
    Reports keys engineKeys (fun _ => False) (apply engineKeys c) := by
  have hpaid : (attempt Bond.payRewards).Keeps (Synced keys engineKeys) :=
    Synced.kept fun v => (Bond.payRewards_viewed Seat.view_ignoresMessages.bonds).attempt
  have hheight : ∀ s, Synced keys engineKeys s → ∃ h, currentHeight s = .ok h :=
    fun s _ => ⟨s.height, rfl⟩
  refine .bind (hpaid.answered (.attempt _)) fun _ => .bind (.read hheight) fun height => ?_
  refine .restrict (P := Synced keys engineKeys) ?_ fun _ hs => hs.1
  refine .bind (mapM_reports fun n _ e => join_synced hdistinct height n.address) fun joined => ?_
  have hleft := mapM_reports (e := joined.flatten.foldl PowerUpdate.enact engineKeys)
    fun n hn e => leave_synced hdistinct height hempty (hleaving n hn)
  refine .bind hleft fun left => ?_
  refine .bind (Synced.yields fun v => ?_) fun _ => .pure fun s hs => ?_
  · exact standDown_viewed Seat.view_ignoresMessages.moves height
  rw [List.foldl_append]
  exact hs

/-- Whatever the end of a block does, the engine that takes its updates counts the active nodes; a
refusal changes nothing that the engine would have to know. -/
theorem endBlock_synced :
    Reports keys engineKeys (Synced keys engineKeys) (endBlock engineKeys) := by
  have hpast : ∀ s, Synced keys engineKeys s → Synced keys engineKeys s := fun _ hs => hs
  have hdone : Reports keys engineKeys (Synced keys engineKeys) (pure []) := .pure hpast
  have htick : Reports keys engineKeys (Synced keys engineKeys)
      (do Ragnarok.tick; return [] : Action (List PowerUpdate)) :=
    .bind (.of_leads (Synced.kept fun v =>
      Ragnarok.tick_viewed Seat.view_ignoresMessages.bonds)) fun _ => hdone
  refine .pastRead hpast fun _ => .ite (fun _ => htick) fun _ => ?_
  refine .readFact hpast (fun s c hs h => known_of_changes hs h) fun c hc => ?_
  refine .pastRead hpast fun _ => .ite (fun _ => htick) fun _ => .ite (fun _ => hdone) fun _ => ?_
  exact (apply_synced hdistinct hc.1 hc.2).mono hpast (fun _ _ hs => hs) fun _ hs => hs.elim

end

end Rotation

end LiquidityNet
