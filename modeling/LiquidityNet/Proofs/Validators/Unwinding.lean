import LiquidityNet.Proofs.Validators.BondReturns

/-!
# The end of all bonds

Every tick of ragnarok runs a round while no payout of it waits to be signed, and from the twentieth
round on all tenths of every bond are returned. A round leaves the module of bonds as solvent as it
was, so that twenty ticks return every bond.
-/

namespace LiquidityNet

open LiquidityNet.Action Ledger

namespace Ragnarok

variable {s t u : Ledger} {n : Node} {ns ms ks : List Node} {tenths : Nat} {Ts : List Table}
  {period : Signed} {x : Network}

/-! ## Bonds of some nodes together -/

/-- The bonds of some nodes together. -/
def bondsOf (ns : List Node) : Nat := Amount.total (ns.map (·.bond))

theorem bondsOf_cons (n : Node) (ns : List Node) : bondsOf (n :: ns) = n.bond.val + bondsOf ns :=
  Amount.total_cons _ _

theorem bondsOf_relieved (h : tenths ≤ 10) (s : Ledger) (ns : List Node) :
    bondsOf (ns.map (relieved tenths s)) + owedFor tenths s ns = bondsOf ns := by
  induction ns with
  | nil => rfl
  | cons n ns ih =>
    have hbond := relieved_bond h s n
    rw [List.map_cons, owedFor_cons, bondsOf_cons, bondsOf_cons]
    omega

theorem bondsOf_of_bondless (h : ∀ n ∈ ns, n.bond = 0) : bondsOf ns = 0 := by
  induction ns with
  | nil => rfl
  | cons n ns ih =>
    rw [bondsOf_cons, h n List.mem_cons_self, ih fun m hm => h m (List.mem_cons_of_mem n hm)]
    rfl

theorem filter_relieved (s : Ledger) (ns : List Node) (q : Address) :
    (ns.map (relieved tenths s)).filter (·.operator = q) =
      (ns.filter (·.operator = q)).map (relieved tenths s) :=
  List.filter_map

/-- Bonds that were those of some nodes have come down to others, and what is gone of them has left
the module of bonds for the operators. -/
structure Repays (ns ms : List Node) (s t : Ledger) : Prop where
  people : ∀ q ∉ Module.accounts,
    t.balancesOf .rune q + bondsOf (ms.filter (·.operator = q)) =
      s.balancesOf .rune q + bondsOf (ns.filter (·.operator = q))
  account :
    t.balancesOf .rune bondAccount + bondsOf ns = s.balancesOf .rune bondAccount + bondsOf ms

theorem Repays.of_same (ns : List Node)
    (h : ∀ q, t.get? (Key.balance q .rune) = s.get? (Key.balance q .rune)) : Repays ns ns s t where
  people := fun q _ => by
    rw [balancesOf, amountAt_congr (h q)]
    rfl
  account := by
    rw [balancesOf, amountAt_congr (h bondAccount)]
    rfl

theorem Repays.trans (h : Repays ns ms s u) (hnext : Repays ms ks u t) : Repays ns ks s t where
  people := fun q hq => (hnext.people q hq).trans (h.people q hq)
  account := by
    have hfirst := h.account
    have hsecond := hnext.account
    omega

theorem Returns.repays (h : Returns tenths ns s t) (htenths : tenths ≤ 10) :
    Repays ns (ns.map (relieved tenths s)) s t where
  people := fun q hq => by
    have hbonds := bondsOf_relieved htenths s (ns.filter (·.operator = q))
    have hpeople := h.people q hq
    rw [filter_relieved]
    omega
  account := by
    have hbonds := bondsOf_relieved htenths s ns
    have haccount := h.account
    omega

/-! ## Between rounds -/

/-- What round after round relies on: it lists nodes that people operate and whose yggdrasil vaults
are empty, nothing of ragnarok waits to be signed, the module of bonds holds all bonds, and each
account has room for the bonds that are returned to it. -/
structure Unwinding (period : Signed) (ns : List Node) (s : Ledger) : Prop where
  complete : s.NodesComplete
  listed : Nodes.all s = .ok ns
  few : ns.length < 0x8000000000000000
  providers : s.ProvidersFit
  period : Governance.value .signingTransactionPeriod s = .ok period
  persons : ∀ n ∈ ns, n.operator ∉ Module.accounts
  unfunded : ∀ n ∈ ns, ∃ v, Vaults.yggdrasilOf n s = .ok v ∧ v.any Vault.hasFunds = false
  signed : ∀ h, ∃ b, Outbounds.atHeight h s = .ok b ∧
    ∀ o ∈ b.pending, Text.beginsWith Memo.ragnarokStart o.memo = false
  solvent : s.Solvent
  room : ∀ q ∉ Module.accounts,
    s.balancesOf .rune q + bondsOf (ns.filter (·.operator = q)) < 0x10000000000000000

/-- What the rounds rely on is in a few tables. -/
theorem Unwinding.of_tables (hs : Unwinding period ns s) (hfiled : t.Filed)
    (hsettings : t.settings = s.settings)
    (h : ∀ k T, Table.ofKey? k = some T →
      T ∈ [Table.nodes, .providers, .vaults, .outbounds, .balances, .mimirs] →
        t.get? k = s.get? k) :
    Unwinding period ns t := by
  have hnodes : ∀ k, Table.ofKey? k = some .nodes → t.get? k = s.get? k := fun k hk =>
    h k _ hk (by decide)
  have hbalance : ∀ q, t.balancesOf .rune q = s.balancesOf .rune q := fun q =>
    congrArg Amount.val (amountAt_congr (h _ _ (Table.ofKey?_balance q .rune) (by decide)))
  have hlisted : Nodes.all t = .ok ns :=
    (fetchAll_congr .nodes fun k hk => hnodes k hk).trans hs.listed
  refine ⟨⟨hfiled, fun a n hn => ?_⟩, hlisted, hs.few, fun a ps hps => ?_, ?_, hs.persons,
    fun n hn => ?_, fun k => ?_, ?_, fun q hq => ?_⟩
  · rw [hnodes _ (Table.ofKey?_node a)] at hn
    exact hs.complete.complete a n hn
  · rw [h _ _ (Table.ofKey?_providers a) (by decide)] at hps
    exact hs.providers a ps hps
  · rw [Governance.value_congr hsettings (h _ _ (Table.ofKey?_mimir _) (by decide))]
    exact hs.period
  · rw [yggdrasilOf_congr fun k => h _ _ (Table.ofKey?_vault k) (by decide)]
    exact hs.unfunded n hn
  · rw [Outbounds.atHeight_congr (h _ _ (Table.ofKey?_outbounds k) (by decide))]
    exact hs.signed k
  · have hsolvent := hs.solvent
    unfold Solvent at hsolvent ⊢
    rw [bonded_eq hlisted, ← balancesOf_rune, hbalance, balancesOf_rune, ← bonded_eq hs.listed]
    exact hsolvent
  · rw [hbalance]
    exact hs.room q hq

theorem Unwinding.of_changes (hs : Unwinding period ns s) (h : Changes Ts s t)
    (hTs : ∀ T ∈ [Table.nodes, .providers, .vaults, .outbounds, .balances, .mimirs], T ∉ Ts) :
    Unwinding period ns t :=
  hs.of_tables (h.filed hs.complete.filed) h.settings fun _ T hk hT => h.get?_eq hk (hTs T hT)

theorem Unwinding.bonds_le (hs : Unwinding period ns s) :
    bondsOf ns ≤ s.balancesOf .rune bondAccount := by
  have hsolvent := hs.solvent
  rw [Solvent, bonded_eq hs.listed, ← balancesOf_rune] at hsolvent
  exact hsolvent

/-- All that a round owes is due while the bonds are covered. -/
theorem Unwinding.due (hs : Unwinding period ns s) (htenths : tenths ≤ 10)
    (hsettled : ∀ x, NetworkState.get s = .ok x → x.ragnarokPending ≤ 0) : Due tenths ns s where
  providers := hs.providers
  turns := fun x hx => by
    have hfirst : x.ragnarokPending.val ≤ 0 := hsettled x hx
    have hfew := hs.few
    omega
  persons := hs.persons
  vaults := fun n hn => (hs.unfunded n hn).imp fun _ h => h.1
  covered := by
    have hbonds := bondsOf_relieved htenths s ns
    have hcovered := hs.bonds_le
    omega
  room := fun q hq => by
    have hbonds := bondsOf_relieved htenths s (ns.filter (·.operator = q))
    have hroom := hs.room q hq
    omega

theorem Returns.providersFit (h : Returns tenths ns s t) (hs : s.ProvidersFit) :
    t.ProvidersFit := by
  intro a ps hps
  by_cases hspared : ∀ n ∈ ns, n.address = a → owed tenths s n = 0
  · rw [(h.spared a hspared).providers] at hps
    exact hs a ps hps
  · obtain ⟨n, hspared⟩ := not_forall.1 hspared
    obtain ⟨hn, hspared⟩ := not_forall.1 hspared
    obtain ⟨rfl, howed⟩ := not_forall.1 hspared
    obtain ⟨qs, hqs, hbonds⟩ := h.shares n hn howed
    cases hqs.symm.trans hps
    rw [hbonds]
    exact (relieved tenths s n).bond.isLt

/-- A round keeps what the next one relies on: as much leaves the module of bonds as leaves the
bonds, and what comes to an account no longer stands in bonds. -/
theorem Unwinding.returned (hs : Unwinding period ns s) (ht : t.NodesComplete)
    (htenths : tenths ≤ 10) (h : Returns tenths ns s t) :
    Unwinding period (ns.map (relieved tenths s)) t := by
  have hlisted := h.all hs.complete ht hs.listed
  refine ⟨ht, hlisted, ?_, h.providersFit hs.providers, ?_, fun m hm => ?_, fun m hm => ?_,
    fun k => ?_, ?_, fun q hq => ?_⟩
  · rw [List.length_map]
    exact hs.few
  · rw [Governance.value_congr h.changes.settings
      (h.changes.get?_eq (Table.ofKey?_mimir _) (by decide))]
    exact hs.period
  · obtain ⟨n, hn, rfl⟩ := List.mem_map.1 hm
    exact hs.persons n hn
  · obtain ⟨n, hn, rfl⟩ := List.mem_map.1 hm
    rw [yggdrasilOf_congr h.vault_eq]
    exact hs.unfunded n hn
  · rw [Outbounds.atHeight_congr (h.changes.get?_eq (Table.ofKey?_outbounds k) (by decide))]
    exact hs.signed k
  · have hcovered := hs.bonds_le
    have haccount := (h.repays htenths).account
    rw [Solvent, bonded_eq hlisted, ← balancesOf_rune]
    show bondsOf _ ≤ _
    omega
  · rw [(h.repays htenths).people q hq]
    exact hs.room q hq

/-! ## One tick -/

theorem Unwinding.unsigned (hs : Unwinding period ns s)
    (hwindow : ∃ start, s.height.sub period = .ok start) : Ragnarok.unsigned s = .ok 0 := by
  obtain ⟨start, hstart⟩ := hwindow
  have hread : ∀ k, ∃ os, (do return (← Outbounds.atHeight k).pending : Query (List Outbound)) s =
      .ok os ∧ ∀ o ∈ os, Text.beginsWith Memo.ragnarokStart o.memo = false := fun k => by
    obtain ⟨b, hb, hmemos⟩ := hs.signed k
    exact ⟨b.pending, Query.bind_eq_ok.2 ⟨b, hb, rfl⟩, hmemos⟩
  obtain ⟨batches, hbatches⟩ := Query.mapM_ok fun k _ => (hread k).imp fun _ h => h.1
  have hpending := Outbounds.pendingWithin_eq_ok.2 ⟨start, batches, hstart, hbatches, rfl⟩
  refine Query.bind_eq_ok.2 ⟨period, hs.period, Query.bind_eq_ok.2 ⟨_, hpending, ?_⟩⟩
  have hnone : (batches.flatten.filter fun o =>
      Text.beginsWith Memo.ragnarokStart o.memo) = [] := by
    refine List.filter_eq_nil_iff.2 fun o ho => ?_
    obtain ⟨os, hos, ho⟩ := List.mem_flatten.1 ho
    obtain ⟨k, -, hk⟩ := Query.mem_of_mapM hbatches hos
    obtain ⟨os', hos', hmemos⟩ := hread k
    obtain rfl := Except.ok.inj (hk.symm.trans hos')
    rw [hmemos o ho]
    exact nofun
  rw [hnone]
  rfl

/-- Ragnarok has begun, and has come to a round. -/
def InRound (round : Signed) (s : Ledger) : Prop :=
  ∃ x, NetworkState.get s = .ok x ∧ x.ragnarokHeight ≠ 0 ∧ x.ragnarokRound = round

theorem stagePools_inRound (round : Signed) : stagePools.Keeps (InRound round) := by
  have hpast : ∀ s, InRound round s → InRound round s := fun _ hs => hs
  refine .readFact (p := fun x => x.ragnarokHeight ≠ 0 ∧ x.ragnarokRound = round) hpast
    (fun s y ⟨x, hx, hshown⟩ hy => ?_) fun x hshown => ?_
  · obtain rfl := Except.ok.inj (hx.symm.trans hy)
    exact hshown
  refine .ite (fun _ => .pure hpast) fun _ => .pastRead hpast fun height => ?_
  refine .pastRead hpast fun ps => ?_
  refine .bind (.forM fun p _ => .of_confined (stagePool_confined height p) ?_) fun _ => ?_
  · rintro s t hchanges ⟨y, hy, hshown⟩
    refine ⟨y, ?_, hshown⟩
    rw [get_congr (hchanges.get?_eq Table.ofKey?_network (by decide))]
    exact hy
  · rintro s r t - hrun
    cases hrun
    exact ⟨_, get_putRecord s _, hshown⟩

/-- The round runs in a checkpoint, which is committed. -/
theorem attempt_returnBonds {round : Signed} (hs : Unwinding period ns s) (hround : 0 ≤ round)
    (hx : NetworkState.get s = .ok x) (hsettled : x.ragnarokPending ≤ 0) :
    ∃ t pending, attempt (transactionally (returnBonds round)) s = (.ok (.ok ()), t) ∧
      NetworkState.get t = .ok { x with ragnarokPending := pending } ∧
      Unwinding period (ns.map (relieved (tenthsIn round) s)) t ∧
      Repays ns (ns.map (relieved (tenthsIn round) s)) s t := by
  have hopened := s.get?_checkpointed
  have hu : Unwinding period ns s.checkpointed :=
    hs.of_tables hs.complete.filed.checkpointed rfl fun k _ _ _ => hopened k
  have hsame : NetworkState.get s.checkpointed = .ok x := (get_congr (hopened _)).trans hx
  have hdue := hu.due (tenthsIn_le round) fun y hy => by
    obtain rfl := Except.ok.inj (hsame.symm.trans hy)
    exact hsettled
  obtain ⟨t, hrun, ht, hreturns⟩ := returnBonds_returns hu.complete hu.listed hround hdue
  have hleft := hu.returned ht (tenthsIn_le round) hreturns
  obtain ⟨pending, hpending⟩ := hreturns.totals x hsame
  obtain ⟨v, hdone, hcommit⟩ := transactionally_of_ok (returnBonds_confined round) hrun
  have hshown := hcommit.get?
  rw [← relieved_congr fun k => hopened (Key.vault k)]
  refine ⟨v, pending, Action.attempt_eq_ok.2 (.inl ⟨(), rfl, hdone⟩), ?_, ?_, ?_⟩
  · exact (get_congr (hshown _)).trans hpending
  · refine hleft.of_tables (fun k r hr => ht.filed k r (hshown k ▸ hr)) ?_ fun k _ _ _ => hshown k
    rw [hcommit.2]
  · have hbefore : Repays ns ns s s.checkpointed := .of_same ns fun q => hopened _
    have hrepaid := hbefore.trans (hreturns.repays (tenthsIn_le round))
    exact hrepaid.trans (.of_same _ fun q => hshown _)

theorem nextRound_run {round : Signed} (hadd : x.ragnarokRound.add 1 = .ok round)
    (h : attempt (transactionally (returnBonds round))
      (s.putRecord Key.network (.network { x with ragnarokRound := round })) = (.ok (.ok ()), t)) :
    nextRound x s = stagePools t := by
  unfold nextRound
  rw [Action.bind_run, Action.compute_run, hadd]
  dsimp only [Except.mapError]
  rw [Action.bind_run]
  show (attempt (transactionally (returnBonds round)) >>= fun _ => stagePools)
    (s.putRecord Key.network (.network { x with ragnarokRound := round })) = stagePools t
  rw [Action.bind_run, h]

/-- The next round counts itself and returns its tenths of every bond. -/
theorem nextRound_unwinds (hs : Unwinding period ns s) (hbegun : x.ragnarokHeight ≠ 0)
    (hround : Counts x.ragnarokRound) (hsettled : x.ragnarokPending ≤ 0) :
    ∃ round, round.val = x.ragnarokRound.val + 1 ∧ InRound round (nextRound x s).2 ∧
      Unwinding period (ns.map (relieved (tenthsIn round) s)) (nextRound x s).2 ∧
      Repays ns (ns.map (relieved (tenthsIn round) s)) s (nextRound x s).2 := by
  obtain ⟨hfirst, hlast⟩ := hround
  have hfirst : 0 ≤ x.ragnarokRound.val := hfirst
  obtain ⟨round, hadd⟩ : ∃ round, x.ragnarokRound.add 1 = .ok round :=
    Signed.add_ok (by rw [Signed.val_one]; omega) (by rw [Signed.val_one]; omega)
  have hval : x.ragnarokRound.val + 1 = round.val := Signed.add_eq_ok_iff.1 hadd
  have hnonneg : 0 ≤ round := by
    show 0 ≤ round.val
    omega
  have hsaved : Changes [.network] s
      (s.putRecord Key.network (.network { x with ragnarokRound := round })) :=
    (NetworkState.save_confined _).changes rfl
  -- The round is stored before its bonds are returned, and the pools are staged after them.
  have hu := hs.of_changes hsaved (by decide)
  obtain ⟨t, pending, hreturned, hx, ht, hrepaid⟩ :=
    attempt_returnBonds hu hnonneg (get_putRecord s _) hsettled
  rcases hstaged : stagePools t with ⟨r, v⟩
  have hin : InRound round v := by
    have hkept := stagePools_inRound round t r v ⟨_, hx, hbegun, rfl⟩ hstaged
    cases r <;> exact hkept
  have hchanges := stagePools_confined.changes hstaged
  rw [(nextRound_run hadd hreturned).trans hstaged]
  refine ⟨round, hval.symm, hin, ?_⟩
  rw [← relieved_congr fun k => hsaved.get?_eq (Table.ofKey?_vault k) (by decide)]
  refine ⟨ht.of_changes hchanges (by decide), ?_⟩
  have hbefore : Repays ns ns s _ := .of_same ns fun q =>
    hsaved.get?_eq (Table.ofKey?_balance q .rune) (by decide)
  exact (hbefore.trans hrepaid).trans (.of_same _ fun q =>
    hchanges.get?_eq (Table.ofKey?_balance q .rune) (by decide))

/-- Once ragnarok has begun and nothing waits to be signed, every tick runs the next round. -/
theorem tick_unwinds {round : Signed} (hs : Unwinding period ns s) (hin : InRound round s)
    (hround : Counts round) (hwindow : ∃ start, s.height.sub period = .ok start) :
    ∃ next, next.val = round.val + 1 ∧ InRound next (tick s).2 ∧
      Unwinding period (ns.map (relieved (tenthsIn next) s)) (tick s).2 ∧
      Repays ns (ns.map (relieved (tenthsIn next) s)) s (tick s).2 := by
  obtain ⟨x, hx, hbegun, rfl⟩ := hin
  by_cases hpending : 0 < x.ragnarokPending
  · have hrun : tick s = nextRound { x with ragnarokPending := 0 } s := by
      unfold tick
      rw [Action.read_bind_run, hx]
      dsimp only
      rw [if_neg hbegun, if_pos hpending, Action.read_bind_run, hs.unsigned hwindow]
      rfl
    rw [hrun]
    exact nextRound_unwinds (x := { x with ragnarokPending := 0 }) hs hbegun hround
      (Int.le_refl _)
  · have hrun : tick s = nextRound x s := by
      unfold tick
      rw [Action.read_bind_run, hx]
      dsimp only
      rw [if_neg hbegun, if_neg hpending]
    rw [hrun]
    exact nextRound_unwinds hs hbegun hround (Int.not_lt.1 hpending)

/-! ## Tick after tick -/

/-- Ticks at some heights, one after another. -/
def ticks : List Height → Ledger → Ledger
  | [], s => s
  | h :: hs, s => ticks hs (tick { s with height := h }).2

theorem ticks_append (front rest : List Height) (s : Ledger) :
    ticks (front ++ rest) s = ticks rest (ticks front s) := by
  induction front generalizing s with
  | nil => rfl
  | cons h front ih => exact ih _

theorem Unwinding.atHeight (hs : Unwinding period ns s) (h : Height) :
    Unwinding period ns { s with height := h } :=
  hs.of_tables hs.complete.filed rfl fun _ _ _ _ => rfl

variable {round : Signed} {heights : List Height}

/-- As long as rounds can be counted, each tick runs one. -/
theorem ticks_unwinds (hs : Unwinding period ns s) (hin : InRound round s) (hfirst : 0 ≤ round)
    (hlast : round.val + heights.length < 0x8000000000000000)
    (hwindows : ∀ h ∈ heights, ∃ start, h.sub period = .ok start) :
    ∃ ms last, last.val = round.val + heights.length ∧ InRound last (ticks heights s) ∧
      Unwinding period ms (ticks heights s) ∧ Repays ns ms s (ticks heights s) := by
  induction heights generalizing ns round s with
  | nil => exact ⟨ns, round, (Int.add_zero _).symm, hin, hs, .of_same ns fun _ => rfl⟩
  | cons h heights ih =>
    have hnonneg : 0 ≤ round.val := hfirst
    rw [List.length_cons] at hlast
    obtain ⟨next, hnext, hin, hs, hrepaid⟩ := tick_unwinds (hs.atHeight h) hin
      ⟨hfirst, by omega⟩ (hwindows h List.mem_cons_self)
    have hcounted : 0 ≤ next := by
      show 0 ≤ next.val
      omega
    obtain ⟨ms, last, hlast, hin, hs, hrest⟩ := ih hs hin hcounted (by omega) fun k hk =>
      hwindows k (List.mem_cons_of_mem h hk)
    refine ⟨ms, last, ?_, hin, hs, ?_⟩
    · rw [hlast, List.length_cons]
      omega
    · have hbefore : Repays ns ns s { s with height := h } := .of_same ns fun _ => rfl
      exact (hbefore.trans hrepaid).trans hrest

/-- Ten tenths of a bond that is not withheld are all of it. -/
theorem relieved_ten (h : awaitsFunds s n = false) : (relieved 10 s n).bond = 0 := by
  have howed : owed 10 s n = n.bond.val := by
    rw [owed, h, if_neg Bool.false_ne_true]
    omega
  have hsum := relieved_bond (Nat.le_refl 10) s n
  rw [← Amount.val_inj, Amount.val_zero]
  omega

theorem ticks_bondless (hs : Unwinding period ns s) (hin : InRound round s) (hfirst : 0 ≤ round)
    (hlast : round.val + heights.length < 0x8000000000000000)
    (hwindows : ∀ h ∈ heights, ∃ start, h.sub period = .ok start) (hmany : 20 ≤ heights.length) :
    ∃ ms, Unwinding period ms (ticks heights s) ∧ (∀ m ∈ ms, m.bond = 0) ∧
      Repays ns ms s (ticks heights s) := by
  -- The last tick alone is past the nineteenth round, and takes all that the others left.
  obtain ⟨front, h, rfl⟩ : ∃ front h, heights = front ++ [h] :=
    ⟨_, _, (List.dropLast_append_getLast (List.ne_nil_of_length_pos (by omega))).symm⟩
  rw [List.length_append, List.length_singleton] at hlast hmany
  have hnonneg : 0 ≤ round.val := hfirst
  obtain ⟨ms, before, hbefore, hin, hs, hrepaid⟩ := ticks_unwinds hs hin hfirst (by omega)
    fun k hk => hwindows k (List.mem_append_left _ hk)
  have hcounted : Counts before := by
    refine ⟨?_, by omega⟩
    show 0 ≤ before.val
    omega
  obtain ⟨next, hnext, -, hend, hrest⟩ := tick_unwinds (hs.atHeight h) hin hcounted
    (hwindows h (List.mem_append_right _ List.mem_cons_self))
  have hten : tenthsIn next = 10 := by
    unfold tenthsIn
    omega
  rw [hten] at hend hrest
  rw [ticks_append]
  refine ⟨_, hend, fun m hm => ?_, ?_⟩
  · obtain ⟨n, hn, rfl⟩ := List.mem_map.1 hm
    obtain ⟨v, hv, hfunds⟩ := (hs.atHeight h).unfunded n hn
    exact relieved_ten ((awaitsFunds_of_read hv).trans hfunds)
  · have hsame : Repays ms ms (ticks front s) { ticks front s with height := h } :=
      .of_same ms fun _ => rfl
    exact hrepaid.trans (hsame.trans hrest)

/-- A round pays every operator its tenths of the bonds of their nodes, of which no fee is taken. It
leaves alone the nodes whose yggdrasil vaults are funded and those whose tenths come to nothing.
Where nothing is withheld, twenty ticks return all bonds. -/
theorem bonds_all_returned :
    (∀ {s ns round}, s.NodesComplete → Nodes.all s = .ok ns → 0 ≤ round →
      Due (tenthsIn round) ns s → ∃ t, returnBonds round s = (.ok (), t) ∧
        Nodes.all t = .ok (ns.map (relieved (tenthsIn round) s)) ∧
        Returns (tenthsIn round) ns s t) ∧
    ∀ {period ns s round} {heights : List Height}, Unwinding period ns s → InRound round s →
      0 ≤ round → round.val + heights.length < 0x8000000000000000 →
      (∀ h ∈ heights, ∃ start, h.sub period = .ok start) → 20 ≤ heights.length →
        (∀ n, (ticks heights s).Stores n → n.bond = 0) ∧
        (∀ q ∉ Module.accounts, (ticks heights s).balancesOf .rune q =
          s.balancesOf .rune q + bondsOf (ns.filter (·.operator = q))) ∧
        (ticks heights s).balancesOf .rune bondAccount + bondsOf ns =
          s.balancesOf .rune bondAccount := by
  refine ⟨fun hs hns hround hdue => ?_, fun hs hin hfirst hlast hwindows hmany => ?_⟩
  · obtain ⟨t, hrun, ht, hreturns⟩ := returnBonds_returns hs hns hround hdue
    exact ⟨t, hrun, hreturns.all hs ht hns, hreturns⟩
  · obtain ⟨ms, hend, hnone, hrepaid⟩ := ticks_bondless hs hin hfirst hlast hwindows hmany
    refine ⟨fun n hn => ?_, fun q hq => ?_, ?_⟩
    · exact hnone n ((Nodes.mem_all hend.complete hend.listed).2 hn)
    · rw [← hrepaid.people q hq, bondsOf_of_bondless fun m hm => hnone m (List.mem_filter.1 hm).1]
      rfl
    · rw [hrepaid.account, bondsOf_of_bondless hnone]
      rfl

/-! ### Two nodes of one operator -/

/-- Ragnarok has begun, and the module of bonds holds the bonds of some nodes. -/
def dusk (ns : List Node) : Ledger :=
  ((ofNodes (.ofEnvironment .mocknet) (.clamp 30) ns).putRecord Key.network
    (.network { Network.initial with ragnarokHeight := .clamp 29 })).putRecord
      (Key.balance bondAccount .rune) (.amount (.cap (bondsOf ns)))

theorem dusk_changes (ns : List Node) :
    Changes [.network, .balances] (ofNodes (.ofEnvironment .mocknet) (.clamp 30) ns) (dusk ns) := by
  refine Changes.trans (changes_putRecord (T := .network) (by decide) Table.ofKey?_network ?_)
    (changes_putRecord (T := .balances) (by decide) (Table.ofKey?_balance _ _) ?_)
  · rfl
  · exact ⟨.balances, by decide, Table.ofKey?_balance _ _⟩

theorem dusk_complete (h : ns.all (·.validate.isOk) = true) : (dusk ns).NodesComplete := by
  have hnodes : (ofNodes (.ofEnvironment .mocknet) (.clamp 30) ns).NodesComplete :=
    nodesComplete_ofNodes h
  exact ((hnodes.viewed (f := .blind)).of_changes (dusk_changes ns) (by decide)).toNodesComplete

/-- There are nodes, what tells of ragnarok, and bonds, and nothing else. -/
theorem dusk_get? {k : String} {T : Table} (hk : Table.ofKey? k = some T)
    (hT : T ∉ [Table.nodes, .network, .balances]) : (dusk ns).get? k = none := by
  have hnodes := (ofNodes_changes (.ofEnvironment .mocknet) (.clamp 30) ns).get?_eq hk
  have hrest := (dusk_changes ns).get?_eq hk
  simp only [List.mem_cons, List.not_mem_nil, or_false, not_or] at hT hnodes hrest
  rw [hrest ⟨hT.2.1, hT.2.2⟩, hnodes hT.1]
  rfl

theorem dusk_providersFit (ns : List Node) : (dusk ns).ProvidersFit := by
  intro a ps hps
  rw [dusk_get? (Table.ofKey?_providers a) (by decide)] at hps
  cases hps

theorem dusk_balance {q : Address} (hq : q ≠ bondAccount) : (dusk ns).balancesOf .rune q = 0 := by
  have hnone : (dusk ns).get? (Key.balance q .rune) = none := by
    unfold dusk
    rw [get?_putRecord, if_neg fun h => hq (Key.balance_inj h), get?_putRecord, if_neg,
      (ofNodes_changes _ _ ns).get?_eq (Table.ofKey?_balance q .rune) (by decide)]
    · rfl
    · exact Key.apart_of_ofKey? (Table.ofKey?_balance q .rune) Table.ofKey?_network (by decide)
  rw [balancesOf, amountAt, hnone]
  rfl

def crew : List Node :=
  [Fixture.node "alva" .active (.cap 15) 1,
    { Fixture.node "bela" .active (.cap 100) 1 with operator := Fixture.operatorAddress "alva" }]

theorem crew_unwinding : Unwinding (.clamp 300) crew (dusk crew) where
  complete := dusk_complete (by decide)
  listed := eq_ok_of_toOption (by decide +kernel)
  few := by decide
  providers := dusk_providersFit crew
  period := eq_ok_of_toOption (by decide +kernel)
  persons := by decide
  unfunded := fun n hn => by
    have hnone : ∀ n ∈ crew, (Vaults.yggdrasilOf n (dusk crew)).toOption = some none := by
      decide +kernel
    exact ⟨none, eq_ok_of_toOption (hnone n hn), rfl⟩
  signed := fun h => by
    have hnone : (dusk crew).get? (Key.outbounds h) = none :=
      dusk_get? (Table.ofKey?_outbounds h) (by decide)
    exact ⟨⟨h, []⟩, fetchD_eq_ok.2 (.inl ⟨hnone, rfl⟩), fun o ho => absurd ho List.not_mem_nil⟩
  solvent := by decide +kernel
  room := fun q hq => by
    have hle : bondsOf (crew.filter (·.operator = q)) ≤ bondsOf crew :=
      Amount.total_filter_le _ _ _
    have hall : bondsOf crew = 115 := by decide +kernel
    have hother : q ≠ bondAccount := fun h => hq (h ▸ (by decide : bondAccount ∈ Module.accounts))
    rw [dusk_balance hother]
    omega

def nights : List Height := (List.range 20).map fun k => .clamp (31 + k)

/-- The eleventh round returns a tenth, and twenty ticks return everything. -/
theorem dusk_returns_all :
    Unwinding (.clamp 300) crew (dusk crew) ∧ InRound 0 (dusk crew) ∧
      (∃ t, returnBonds (.clamp 11) (dusk crew) = (.ok (), t) ∧
        (Nodes.all t).toOption.map (·.map (·.bond.val)) = some [14, 90] ∧
        t.balancesOf .rune (Fixture.operatorAddress "alva") = 11 ∧
        t.balancesOf .rune bondAccount = 104) ∧
      (∀ n, (ticks nights (dusk crew)).Stores n → n.bond = 0) ∧
      (ticks nights (dusk crew)).balancesOf .rune (Fixture.operatorAddress "alva") = 115 ∧
      (ticks nights (dusk crew)).balancesOf .rune bondAccount = 0 := by
  have htotals : NetworkState.get (dusk crew) =
      .ok { Network.initial with ragnarokHeight := .clamp 29 } :=
    eq_ok_of_toOption (by decide +kernel)
  have hin : InRound 0 (dusk crew) := ⟨_, htotals, by decide, rfl⟩
  have hperson : Fixture.operatorAddress "alva" ∉ Module.accounts := by decide
  have hbefore : (dusk crew).balancesOf .rune (Fixture.operatorAddress "alva") = 0 :=
    dusk_balance (by decide)
  have hfunds : (dusk crew).balancesOf .rune bondAccount = 115 := by decide +kernel
  obtain ⟨hround, hticks⟩ := bonds_all_returned
  refine ⟨crew_unwinding, hin, ?_, ?_⟩
  · have hdue : Due (tenthsIn (.clamp 11)) crew (dusk crew) :=
      crew_unwinding.due (tenthsIn_le _) fun x hx => by
        obtain rfl := Except.ok.inj (htotals.symm.trans hx)
        exact Int.le_refl _
    have howed : owedFor (tenthsIn (.clamp 11)) (dusk crew) crew = 11 ∧
        crew.filter (·.operator = Fixture.operatorAddress "alva") = crew ∧
        (crew.map (relieved (tenthsIn (.clamp 11)) (dusk crew))).map (·.bond.val) = [14, 90] := by
      decide +kernel
    obtain ⟨howed, hown, hbonds⟩ := howed
    obtain ⟨t, hrun, hall, hreturns⟩ := hround crew_unwinding.complete crew_unwinding.listed
      (by decide) hdue
    have hpaid := hreturns.people _ hperson
    have hleft := hreturns.account
    rw [hown, howed, hbefore] at hpaid
    rw [howed, hfunds] at hleft
    refine ⟨t, hrun, ?_, hpaid, by omega⟩
    rw [hall]
    exact congrArg some hbonds
  · have hown : bondsOf (crew.filter (·.operator = Fixture.operatorAddress "alva")) = 115 ∧
        bondsOf crew = 115 := by
      decide +kernel
    have hwindows : ∀ h ∈ nights, ∃ start, h.sub (.clamp 300) = .ok start := fun h hh => by
      have hall : ∀ h ∈ nights, (h.sub (.clamp 300)).toOption.isSome = true := by decide +kernel
      obtain ⟨start, hstart⟩ := Option.isSome_iff_exists.1 (hall h hh)
      exact ⟨start, eq_ok_of_toOption hstart⟩
    obtain ⟨hnone, hpaid, hleft⟩ := hticks crew_unwinding hin (by decide) (by decide) hwindows
      (by decide)
    refine ⟨hnone, ?_, ?_⟩
    · rw [hpaid _ hperson, hown.1, hbefore]
    · rw [hown.2, hfunds] at hleft
      omega

/-! ### A bond too small for a tenth -/

def mite : Node := Fixture.node "mite" .active (.cap 5) 1

/-- The only provider of the bond has put up less than all of it. -/
def miteShares : Providers := ⟨mite.address, 0, [⟨mite.operator, .cap 3⟩]⟩

def miteLedger : Ledger :=
  (dusk [mite]).putRecord (Key.providers miteShares.node) (.providers miteShares)

/-- A bond whose tenth comes to nothing keeps its providers, whose shares may not sum to it. -/
theorem mite_keeps_shares :
    miteLedger.NodesComplete ∧ Nodes.all miteLedger = .ok [mite] ∧
      Due (tenthsIn (.clamp 11)) [mite] miteLedger ∧ awaitsFunds miteLedger mite = false ∧
      ∃ t ps, returnBonds (.clamp 11) miteLedger = (.ok (), t) ∧ t.Stores mite ∧
        t.get? (Key.providers mite.address) = some (.providers ps) ∧ ps.bonds ≠ mite.bond.val := by
  have hstored : miteLedger.get? (Key.providers mite.address) = some (.providers miteShares) := by
    unfold miteLedger
    exact (get?_putRecord _ _ _ _).trans (if_pos rfl)
  have hcomplete : miteLedger.NodesComplete := by
    have hdusk : (dusk [mite]).NodesComplete := dusk_complete (by decide)
    have hchanges : Changes [.providers] (dusk [mite]) miteLedger :=
      changes_putRecord (T := .providers) (by decide) (Table.ofKey?_providers _) rfl
    exact ((hdusk.viewed (f := .blind)).of_changes hchanges (by decide)).toNodesComplete
  have hall : Nodes.all miteLedger = .ok [mite] := eq_ok_of_toOption (by decide +kernel)
  have htotals : NetworkState.get miteLedger =
      .ok { Network.initial with ragnarokHeight := .clamp 29 } :=
    eq_ok_of_toOption (by decide +kernel)
  have howed : owed (tenthsIn (.clamp 11)) miteLedger mite = 0 ∧
      awaitsFunds miteLedger mite = false := by
    decide +kernel
  have hnone : ∀ n ∈ [mite], owed (tenthsIn (.clamp 11)) miteLedger n = 0 := fun n hn => by
    rw [List.mem_singleton.1 hn]
    exact howed.1
  have hdue : Due (tenthsIn (.clamp 11)) [mite] miteLedger := by
    have hfit : miteLedger.ProvidersFit := (dusk_providersFit [mite]).put (by decide)
    refine ⟨⟨hfit, fun x hx => ?_⟩, by decide, fun n hn => ?_, ?_, fun q _ => ?_⟩
    · obtain rfl := Except.ok.inj (htotals.symm.trans hx)
      decide
    · obtain rfl := List.mem_singleton.1 hn
      exact ⟨none, eq_ok_of_toOption (by decide +kernel)⟩
    · rw [owedFor_eq_zero hnone]
      exact Nat.zero_le _
    · rw [owedFor_eq_zero fun n hn => hnone n (List.mem_filter.1 hn).1]
      exact (miteLedger.amountAt (Key.balance q .rune)).isLt
  obtain ⟨t, hrun, -, hreturns⟩ := returnBonds_returns hcomplete hall (by decide) hdue
  have hsame : SameAt mite.address miteLedger t :=
    hreturns.spared mite.address fun n hn _ => hnone n hn
  refine ⟨hcomplete, hall, hdue, howed.2, t, _, hrun, ?_, hsame.providers.trans hstored, by decide⟩
  rw [Stores, hsame.node]
  exact (Nodes.mem_all hcomplete hall).1 List.mem_cons_self

end Ragnarok

end LiquidityNet
