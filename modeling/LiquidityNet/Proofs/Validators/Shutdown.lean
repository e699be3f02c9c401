import LiquidityNet.Proofs.Validators.Oversight

/-!
# The course of the shutdown

The network's record tells how far ragnarok has come. Rewards and returned bonds store it anew
without moving this phase, which only the rounds of ragnarok do, and forward only. Swaps and
refunds store pools anew, but a pool that is staged stays so.
-/

namespace LiquidityNet

open LiquidityNet.Action Ledger

namespace Phase

variable {p q r : Phase}

structure Precedes (p q : Phase) : Prop where
  height : q.height = p.height
  round : p.round ≤ q.round
  staged : p.staged = true → q.staged = true

theorem Precedes.refl (p : Phase) : p.Precedes p := ⟨rfl, Int.le_refl _, id⟩

theorem Precedes.trans (hpq : p.Precedes q) (hqr : q.Precedes r) : p.Precedes r where
  height := hqr.height.trans hpq.height
  round := Int.le_trans hpq.round hqr.round
  staged := hqr.staged ∘ hpq.staged

/-- Once ragnarok has begun, only later phases are reached. -/
def Reaches (p q : Phase) : Prop := 0 < p.height → p.Precedes q

theorem Reaches.refl (p : Phase) : p.Reaches p := fun _ => .refl p

theorem Reaches.trans (hpq : p.Reaches q) (hqr : q.Reaches r) : p.Reaches r := by
  intro hbegun
  have hnext := hpq hbegun
  exact hnext.trans (hqr (hnext.height ▸ hbegun))

end Phase

theorem Key.beginsWith_pool (a : Asset) : Text.beginsWith Key.poolStart (Key.pool a) = true :=
  Text.beginsWith_iff.2 ⟨a.text.toList, String.toList_append.symm⟩

namespace Ledger

/-- The phase that the network's record tells. -/
def phase (s : Ledger) : Phase :=
  match s.get? Key.network with
  | some (.network t) => t.phase
  | _ => Network.initial.phase

def AllStaged (s : Ledger) : Prop := ∀ k x, s.get? k = some (.pool x) → x.status = .staged

/-- A ledger in a phase, all of whose pools are staged if the phase says so. -/
structure InPhase (p : Phase) (s : Ledger) : Prop where
  filed : s.Filed
  poolsFiled : s.PoolsFiled
  phase : s.phase = p
  staged : p.staged = true → s.AllStaged

variable {p q : Phase} {s t : Ledger} {Ts : List Table}

theorem phase_congr (h : t.get? Key.network = s.get? Key.network) : t.phase = s.phase := by
  unfold phase
  rw [h]

theorem phase_of_get {n : Network} (h : NetworkState.get s = .ok n) : s.phase = n.phase := by
  rcases fetchD_eq_ok.1 h with ⟨hnone, rfl⟩ | ⟨r, hr, hread⟩
  · unfold phase
    rw [hnone]
  · cases r <;> cases hread
    unfold phase
    rw [hr]

theorem phase_putNetwork (s : Ledger) (n : Network) :
    (s.putRecord Key.network (.network n)).phase = n.phase := by
  unfold phase
  rw [get?_putRecord, if_pos rfl]

theorem phase_putPool (s : Ledger) (x : Pool) :
    (s.putRecord (Key.pool x.asset) (.pool x)).phase = s.phase := by
  refine phase_congr ?_
  rw [get?_putRecord, if_neg (Key.pool_ne_network x.asset).symm]

theorem oversees_phase (p : Phase) :
    Oversees (fun s => s.phase = p) (fun n => n.phase = p) fun _ => True where
  elsewhere _ hnetwork _ hs := (phase_congr hnetwork).trans hs
  network hs h := (phase_of_get h).symm.trans hs
  putNetwork hn _ := (phase_putNetwork _ _).trans hn
  samePhase hn h := h.trans hn
  pool _ _ := trivial
  putPool _ hs := (phase_putPool _ _).trans hs
  samePool _ _ _ := trivial

theorem isEnding_run (s : Ledger) :
    NetworkState.isEnding s = .ok (decide (0 < s.phase.height)) := by
  unfold NetworkState.isEnding
  rcases hget : NetworkState.get s with e | n
  · -- A record that cannot be read tells of no phase either.
    have hinitial : s.phase = Network.initial.phase := by
      unfold phase
      split
      · rename_i n hn
        have hread : NetworkState.get s = .ok n := fetchD_eq_ok.2 (.inr ⟨_, hn, rfl⟩)
        cases hget.symm.trans hread
      · rfl
    rw [hinitial]
    rfl
  · rw [phase_of_get hget]
    rfl

namespace InPhase

theorem of_tables (hs : InPhase p s) (hfiled : t.Filed)
    (hnetwork : t.get? Key.network = s.get? Key.network)
    (hpools : ∀ k, Table.ofKey? k = some .pools → t.get? k = s.get? k) : InPhase p t where
  filed := hfiled
  poolsFiled := hs.poolsFiled.of_pools hpools
  phase := (phase_congr hnetwork).trans hs.phase
  staged := by
    intro hstaged k x hx
    have hkey : k = Key.pool x.asset := hfiled k _ hx
    refine hs.staged hstaged k x ?_
    rw [← hpools k (hkey ▸ Table.ofKey?_pool x.asset)]
    exact hx

theorem putNetwork (hs : InPhase p s) {n : Network} (hn : n.phase = q)
    (hstaged : q.staged = true → s.AllStaged) :
    InPhase q (s.putRecord Key.network (.network n)) where
  filed := hs.filed.putRecord rfl
  poolsFiled := oversees_poolsFiled.putNetwork trivial hs.poolsFiled
  phase := (phase_putNetwork _ _).trans hn
  staged := by
    intro hq k x hx
    rw [get?_putRecord] at hx
    split at hx
    · cases hx
    · exact hstaged hq k x hx

theorem putPool (hs : InPhase p s) {x : Pool} (hasset : x.asset.reread? = some x.asset)
    (hx : p.staged = true → x.status = .staged) :
    InPhase p (s.putRecord (Key.pool x.asset) (.pool x)) where
  filed := hs.filed.putRecord rfl
  poolsFiled := hs.poolsFiled.putRecord hasset
  phase := (phase_putPool _ _).trans hs.phase
  staged := by
    intro hstaged k y hy
    rw [get?_putRecord] at hy
    split at hy
    · cases hy
      exact hx hstaged
    · exact hs.staged hstaged k y hy

end InPhase

end Ledger

/-- While ragnarok goes on, a block past the first height begins without any change. -/
theorem Rotation.beginBlock_of_ending {s : Ledger} (hheight : s.height ≠ Rotation.firstHeight)
    (h : NetworkState.isEnding s = .ok true) : Rotation.beginBlock s = (.ok (), s) := by
  unfold Rotation.beginBlock
  rw [Action.read_bind_run, currentHeight_run]
  show (if s.height = Rotation.firstHeight then Rotation.seatAll else _) s = _
  rw [if_neg hheight, Action.read_bind_run, h]
  rfl

/-! ## What the phase rests on -/

variable {p : Phase}

/-- A pool that stays staged once pools are staged, with an asset that it can be found by. -/
structure Pools.Fits (p : Phase) (x : Pool) : Prop where
  asset : x.asset.reread? = some x.asset
  staged : p.staged = true → x.status = .staged

theorem phase_of_read {s : Ledger} {t : Network} (hs : InPhase p s)
    (h : NetworkState.get s = .ok t) : t.phase = p :=
  (phase_of_get h).symm.trans hs.phase

namespace Ledger

theorem oversees_inPhase (p : Phase) :
    Oversees (InPhase p) (fun n => n.phase = p) (Pools.Fits p) where
  elsewhere hfiled hnetwork hpools hs := hs.of_tables (hfiled hs.filed) hnetwork hpools
  network := phase_of_read
  putNetwork hn hs := hs.putNetwork hn hs.staged
  samePhase hn h := h.trans hn
  pool := by
    intro s a x hs hfound
    refine ⟨Pools.reread?_of_find? hfound, fun hstaged => ?_⟩
    obtain ⟨r, hr, hread⟩ := Pools.find?_eq_some.1 hfound
    obtain ⟨a, -, rfl⟩ := Option.map_eq_some_iff.1 hread
    exact hs.staged hstaged _ r hr
  putPool hx hs := hs.putPool hx.asset hx.staged
  samePool hx hasset hstatus := ⟨hasset ▸ hx.asset, fun h => hstatus.trans (hx.staged h)⟩

end Ledger

/-! ## Rounds -/

namespace Ragnarok

/-- Each pool is staged, or is still to be staged as it was read. -/
structure Staging (p : Phase) (rest : List Pool) (s : Ledger) : Prop where
  inPhase : InPhase p s
  assets : ∀ x ∈ rest, x.asset.reread? = some x.asset
  staged : ∀ k x, s.get? k = some (.pool x) →
    x.status = .staged ∨ ∃ y ∈ rest, k = Key.pool y.asset ∧ x.status = y.status

theorem staging_of_all {s : Ledger} {xs : List Pool} (hs : InPhase p s)
    (h : Pools.all s = .ok xs) : Staging p xs s where
  inPhase := hs
  assets := Pools.reread?_of_all h
  staged := by
    intro k x hx
    have hkey : k = Key.pool x.asset := hs.filed k _ hx
    obtain ⟨y, hy, hread⟩ := mem_of_fetchAll h (hkey ▸ Key.beginsWith_pool x.asset) hx
    replace hread : x.reread? = some y := hread
    have hfound : Pools.find? x.asset s = .ok (some y) :=
      Pools.find?_eq_some.2 ⟨x, hkey ▸ hx, hread⟩
    obtain ⟨a, -, rfl⟩ := Option.map_eq_some_iff.1 hread
    have hsame : a = x.asset := hs.poolsFiled _ _ hfound
    exact .inr ⟨_, hy, by rw [hkey, hsame], rfl⟩

theorem Staging.put {s : Ledger} {x : Pool} {rest : List Pool} (hs : Staging p (x :: rest) s)
    (height : Height) :
    Staging p rest (s.putRecord (Key.pool x.asset)
      (.pool { x with status := .staged, statusSince := height })) where
  inPhase := hs.inPhase.putPool (x := { x with status := .staged, statusSince := height })
    (hs.assets x List.mem_cons_self) fun _ => rfl
  assets y hy := hs.assets y (List.mem_cons_of_mem x hy)
  staged := by
    intro k y hy
    rw [get?_putRecord] at hy
    split at hy
    · cases hy
      exact .inl rfl
    · rename_i hkey
      rcases hs.staged k y hy with hdone | ⟨z, hz, hown, hstatus⟩
      · exact .inl hdone
      · rcases List.mem_cons.1 hz with rfl | hz
        · exact absurd hown hkey
        · exact .inr ⟨z, hz, hown, hstatus⟩

theorem stagePool_staging (height : Height) (x : Pool) (rest : List Pool) :
    (stagePool height x).Leads (Staging p (x :: rest)) (fun _ => Staging p rest) (InPhase p) := by
  refine .ite (fun hstaged => .pure fun s hs => ?_) fun _ => ?_
  · refine ⟨hs.inPhase, fun y hy => hs.assets y (List.mem_cons_of_mem x hy), fun k y hy => ?_⟩
    rcases hs.staged k y hy with hdone | ⟨z, hz, hkey, hstatus⟩
    · exact .inl hdone
    · rcases List.mem_cons.1 hz with rfl | hz
      · exact .inl (hstatus.trans hstaged)
      · exact .inr ⟨z, hz, hkey, hstatus⟩
  · refine .bind (R := fun _ => Staging p rest) ?_ fun _ => ?_
    · intro s r t hs hrun
      cases hrun
      exact hs.put height
    · intro s r t hs hrun
      cases hrun
      exact ⟨(oversees_inPhase p).congr (s := s) (fun _ => rfl) hs.inPhase, hs.assets, hs.staged⟩

/-- When the pools have been staged, the network's record says so; until then nothing is said. -/
theorem stagePools_inPhase :
    stagePools.Leads (InPhase p) (fun _ => InPhase { p with staged := true }) (InPhase p) := by
  have hpast : ∀ s, InPhase p s → InPhase p s := fun _ hs => hs
  refine .readFact hpast (fun _ _ => phase_of_read) fun t ht => ?_
  refine .ite (fun hstaged => ?_) fun _ => ?_
  · have hsame : { p with staged := true } = p := by
      rw [← ht]
      exact congrArg (Phase.mk _ _) hstaged.symm
    rw [hsame]
    exact .pure hpast
  · refine .pastRead hpast fun height => .readThen hpast fun xs => ?_
    have hloop : (xs.forM (stagePool height)).Leads (fun s => InPhase p s ∧ Pools.all s = .ok xs)
        (fun _ => Staging p []) (InPhase p) :=
      (Action.Leads.forRest (stagePool_staging height) xs).mono
        (fun _ hs => staging_of_all hs.1 hs.2) (fun _ _ hs => hs) hpast
    refine hloop.bind fun _ s r t' hs hrun => ?_
    cases hrun
    refine hs.inPhase.putNetwork ?_ fun _ k x hx => ?_
    · rw [← ht]
      rfl
    · refine (hs.staged k x hx).resolve_right ?_
      rintro ⟨y, hy, -⟩
      cases hy

/-- The phase has been reached from an earlier one. -/
structure Reached (p : Phase) (s : Ledger) : Prop where
  reaches : p.Reaches s.phase
  inPhase : InPhase s.phase s

theorem reached_of {q : Phase} {s : Ledger} (hs : InPhase q s) (h : p.Reaches q) : Reached p s :=
  ⟨hs.phase.symm ▸ h, hs.phase.symm ▸ hs⟩

theorem Reached.trans {s t : Ledger} (hs : Reached p s) (ht : Reached s.phase t) : Reached p t :=
  ⟨hs.reaches.trans ht.reaches, ht.inPhase⟩

/-- What leads from every phase to later ones leads from those reached to later ones. -/
theorem Reached.leads {α : Type} {body : Action α} {X : α → Ledger → Prop}
    (h : ∀ q, body.Leads (InPhase q) (fun a s => Reached q s ∧ X a s) (Reached q)) :
    body.Leads (Reached p) (fun a s => Reached p s ∧ X a s) (Reached p) := by
  intro s r t hs hrun
  have ht := h s.phase s r t hs.inPhase hrun
  cases r with
  | ok a => exact ⟨hs.trans ht.1, ht.2⟩
  | error e => exact hs.trans ht

/-- What keeps every phase keeps to the phases reached. -/
theorem Reached.kept {α : Type} {body : Action α} (h : ∀ q, body.Keeps (InPhase q)) :
    body.Keeps (Reached p) := by
  intro s r t hs hrun
  have ht := h s.phase s r t hs.inPhase hrun
  cases r <;> exact reached_of ht hs.reaches

theorem nextRound_reached {t : Network} (ht : t.phase = p) :
    (nextRound t).Leads (InPhase p) (fun _ => Reached p) (Reached p) := by
  have hstart : ∀ s, InPhase p s → Reached p s := fun _ hs => reached_of hs (.refl p)
  refine .computeThen hstart fun round hround => ?_
  -- The round is stored first, so that all that follows is in a later phase.
  have hlater : p.Precedes { p with round := round } := by
    refine ⟨rfl, ?_, id⟩
    have hval := Signed.add_eq_ok_iff.1 hround
    rw [← ht]
    show t.ragnarokRound.val ≤ round.val
    rw [← hval, Signed.val_one]
    omega
  have hreached : ∀ s, InPhase { p with round := round } s → Reached p s := fun _ hs =>
    reached_of hs fun _ => hlater
  refine .bind (R := fun _ => InPhase { p with round := round }) ?_ fun _ => ?_
  · intro s r u hs hrun
    cases hrun
    refine hs.putNetwork ?_ hs.staged
    rw [← ht]
    rfl
  · have hreturned := ((oversees_inPhase { p with round := round }).returnBonds round).attempt
    refine .bind (hreturned.mono (fun _ hs => hs) (fun _ _ hs => hs) hreached) fun _ => ?_
    refine stagePools_inPhase.mono (fun _ hs => hs) (fun _ s hs => ?_) hreached
    exact reached_of hs fun _ => hlater.trans ⟨rfl, Int.le_refl _, fun _ => rfl⟩

/-- The first tick notes the height, and nothing else of the phase. -/
theorem start_inPhase {t : Network} (ht : t.phase = p) (height : Height) :
    (start t).Leads (fun s => InPhase p s ∧ s.height = height)
      (fun _ => InPhase { p with height := height })
      (fun s => InPhase p s ∨ InPhase { p with height := height } s) := by
  refine (oversees_inPhase _).start height fun s hs => hs.putNetwork ?_ hs.staged
  rw [← ht]
  rfl

/-- The first tick that succeeds has begun ragnarok at the height of its ledger. -/
theorem phase_of_firstTick {s t : Ledger} (hzero : s.phase.height = 0) (h : tick s = (.ok (), t)) :
    t.phase.height = s.height := by
  unfold tick at h
  rcases read_bind_cases h with ⟨e, -, hr, -⟩ | ⟨n, hn, h⟩
  · cases hr
  · have hfirst : n.ragnarokHeight = 0 :=
      (congrArg Phase.height (phase_of_get hn)).symm.trans hzero
    rw [if_pos hfirst] at h
    have hnoted : ∀ u : Ledger, True → (u.putRecord Key.network
        (.network { n with ragnarokHeight := s.height })).phase =
          { n.phase with height := s.height } := fun u _ => phase_putNetwork u _
    exact congrArg Phase.height
      ((oversees_phase _).start s.height hnoted s _ t ⟨trivial, rfl⟩ h)

theorem tick_reached : tick.Keeps (Reached p) := by
  have hfrom : ∀ q, tick.Leads (InPhase q) (fun _ => Reached q) (Reached q) := by
    intro q
    have hstart : ∀ s, InPhase q s → Reached q s := fun _ hs => reached_of hs (.refl q)
    refine .readFact hstart (fun _ _ => phase_of_read) fun t ht => ?_
    refine .ite (fun hzero => ?_) fun _ => ?_
    · have hidle : ∀ r : Phase, q.Reaches r := by
        intro r hbegun
        rw [← ht] at hbegun
        exact absurd hbegun (by show ¬ 0 < t.ragnarokHeight; rw [hzero]; decide)
      intro s r u hs hrun
      have hu := start_inPhase ht s.height s r u ⟨hs, rfl⟩ hrun
      cases r with
      | ok _ => exact reached_of hu (hidle _)
      | error _ => exact hu.elim (fun h => reached_of h (hidle _)) fun h => reached_of h (hidle _)
    · refine .ite (fun _ => .pastRead hstart fun _ => .ite (fun _ => .pure hstart) fun _ => ?_)
        fun _ => nextRound_reached ht
      exact nextRound_reached (t := { t with ragnarokPending := 0 }) ht
  intro s r t hs hrun
  have ht := hfrom s.phase s r t hs.inPhase hrun
  cases r <;> exact hs.trans ht

end Ragnarok

end LiquidityNet
