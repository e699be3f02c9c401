import LiquidityNet.Proofs.Queue.Completion
import LiquidityNet.Proofs.Swap.Delivery

/-!
# The pools after a failed swap

A swap that fails is taken back before it is refunded, so its refund begins with the pools as they
were. It writes to a pool only where an external coin could not be sent back: the coin is then given
to the pool of its asset, which grows by just that coin.
-/

namespace LiquidityNet

open LiquidityNet.Action Ledger

variable {s t u : Ledger} {c : Coin} {p : Pool}

namespace Ledger

/-- No pool changed. -/
def SamePools (s t : Ledger) : Prop := ∀ k, Table.ofKey? k = some .pools → t.get? k = s.get? k

/-- The pool of a coin's asset gained the coin, and all other pools are the same. -/
structure Gains (s t : Ledger) (c : Coin) (p : Pool) : Prop where
  before : s.get? (Key.pool c.asset) = some (.pool p)
  after : t.get? (Key.pool c.asset) = some (.pool { p with depth := p.depth.plus c.amount })
  others : ∀ k, Table.ofKey? k = some .pools → k ≠ Key.pool c.asset → t.get? k = s.get? k

theorem SamePools.of_changes {Ts : List Table} (h : Changes Ts s t) (hTs : .pools ∉ Ts) :
    s.SamePools t :=
  fun _ hk => h.get?_eq hk hTs

theorem SamePools.refl (s : Ledger) : s.SamePools s := fun _ _ => rfl

theorem SamePools.trans (h : s.SamePools t) (h' : t.SamePools u) : s.SamePools u :=
  fun k hk => (h' k hk).trans (h k hk)

namespace Gains

theorem before_same (h : t.Gains u c p) (hst : s.SamePools t) : s.Gains u c p where
  before := (hst _ (Table.ofKey?_pool _)).symm.trans h.before
  after := h.after
  others k hk hne := (h.others k hk hne).trans (hst k hk)

theorem then_same (h : s.Gains t c p) (htu : t.SamePools u) : s.Gains u c p where
  before := h.before
  after := (htu _ (Table.ofKey?_pool _)).trans h.after
  others k hk hne := (htu k hk).trans (h.others k hk hne)

end Gains

end Ledger

namespace Asset

variable {a : Asset}

/-- An external asset is an asset of layer 1 of another chain. -/
theorem external_iff : a.isNative = false ↔ a.synth = false ∧ a.chain.isHome = false := by
  cases hsynth : a.synth <;> simp [isNative, homeChain, hsynth, Chain.isHome]

theorem backing_of_external (h : a.isNative = false) : a.backing = a := by
  obtain ⟨hsynth, haway⟩ := external_iff.1 h
  rw [backing, isDerived, hsynth, haway]
  rfl

theorem isNativeRune_of_external (h : a.isNative = false) : a.isNativeRune = false := by
  rw [isNativeRune, (external_iff.1 h).2, Bool.and_false]

end Asset

/-- A pool of an asset that reads back is found as it is stored. -/
theorem Pools.get?_of_find? {a : Asset} (hs : s.Filed) (hread : a.reread? = some a)
    (h : find? a s = .ok (some p)) : s.get? (Key.pool a) = some (.pool p) ∧ p.asset = a := by
  obtain ⟨r, hr, hp⟩ := find?_eq_some.1 h
  have hkey : Key.pool a = Key.pool r.asset := hs _ _ hr
  obtain rfl := Asset.text_inj (Key.append_cancel hkey)
  obtain ⟨b, hb, rfl⟩ := Option.map_eq_some_iff.1 hp
  obtain rfl := Option.some.inj (hread.symm.trans hb)
  exact ⟨hr, rfl⟩

namespace Refund

/-- A coin is donated to a pool if it is external, the pool of its asset holds RUNE, and no outbound
could be scheduled for it. -/
structure Donates (inbound : Inbound) (payer : Option String) (c : Coin) (p : Pool) (s : Ledger) :
    Prop where
  external : c.asset.isNative = false
  pool : Pools.find? c.asset s = .ok (some p)
  rune : p.rune ≠ 0
  unsent : (Payout.schedule (outboundOf inbound payer c) 0 s).1 ≠ .ok true

variable {inbound : Inbound} {payer : Option String} {done : Progress}

theorem Donates.found (h : Donates inbound payer c p s) :
    Pools.find? c.asset.backing s = .ok (some p) := by
  rw [Asset.backing_of_external h.external]
  exact h.pool

/-- What is left of a native coin is burned or goes to the reserve. -/
theorem settle_native_confined (h : c.asset.isNative = true) (pool : Option Pool) :
    Confined [.balances, .supplies] (settle inbound payer pool c) := by
  unfold settle
  rw [h]
  refine .ite (fun hfalse => nomatch hfalse) fun _ => .ite (fun _ => burn_confined _ c) fun _ => ?_
  exact .ite (fun _ => (reserve_confined inbound _ c).mono (by decide)) fun _ => .pure ()

theorem donate_gains {r : Except Failure Unit} (hstored : s.get? (Key.pool c.asset) = some (.pool p))
    (hasset : p.asset = c.asset) (h : donate inbound p c s = (r, t)) :
    r = .ok () ∧ s.Gains t c p := by
  have hend : r = .ok () ∧ ∀ k, t.get? k = if k = Key.pool p.asset then
      some (.pool { p with depth := p.depth.plus c.amount }) else s.get? k := by
    cases h
    exact ⟨rfl, fun k => get?_putRecord s _ _ k⟩
  have hkey : Key.pool p.asset = Key.pool c.asset := congrArg Key.pool hasset
  refine ⟨hend.1, hstored, ?_, fun k _ hne => ?_⟩
  · rw [hend.2, if_pos hkey.symm]
  · rw [hend.2, if_neg fun hk => hne (hk.trans hkey)]

/-- Of what could not be sent back, only an external coin goes to a pool. -/
theorem settle_cases {pool : Option Pool} {r : Except Failure Unit} (hs : s.Filed)
    (hread : c.asset.reread? = some c.asset) (hpool : Pools.find? c.asset.backing s = .ok pool)
    (hsame : s.SamePools u) (h : settle inbound payer pool c u = (r, t)) :
    (∃ p, c.asset.isNative = false ∧ pool = some p ∧ r = .ok () ∧ s.Gains t c p) ∨
      (c.asset.isNative = true ∨ pool = none) ∧ s.SamePools t := by
  cases hnative : c.asset.isNative with
  | true =>
    have hsettled := (settle_native_confined hnative pool).changes h
    exact .inr ⟨.inl rfl, hsame.trans (.of_changes hsettled (by decide))⟩
  | false =>
    unfold settle at h
    rw [hnative] at h
    cases pool with
    | none =>
      cases h
      exact .inr ⟨.inr rfl, hsame⟩
    | some p =>
      rw [Asset.backing_of_external hnative] at hpool
      obtain ⟨hstored, hasset⟩ := Pools.get?_of_find? hs hread hpool
      rw [← hsame _ (Table.ofKey?_pool _)] at hstored
      obtain ⟨hr, hgains⟩ := donate_gains hstored hasset h
      exact .inl ⟨p, rfl, rfl, hr, hgains.before_same hsame⟩

/-- What becomes of a coin in a refund: it is donated, or all pools stay as they are; a fault apart,
they do so only if the coin is not to be donated. -/
inductive Disposal (inbound : Inbound) (payer : Option String) (c : Coin) (s t : Ledger) :
    Except Failure Progress → Prop
  | donated {p : Pool} {done : Progress} (hd : Donates inbound payer c p s)
      (hgains : s.Gains t c p) : Disposal inbound payer c s t (.ok done)
  | kept {r : Except Failure Progress} (hsame : s.SamePools t)
      (hnone : (∀ f, r ≠ .error (.fault f)) → ∀ p, ¬ Donates inbound payer c p s) :
      Disposal inbound payer c s t r

theorem coin_disposal (hs : s.Filed) (hread : c.asset.reread? = some c.asset)
    {r : Except Failure Progress} (h : coin inbound payer done c s = (r, t)) :
    Disposal inbound payer c s t r := by
  unfold coin at h
  rw [Action.read_bind_run] at h
  rcases hpool : Pools.find? c.asset.backing s with e | pool <;> rw [hpool] at h
  · cases h
    exact .kept (.refl s) fun _ p hd => nomatch hpool.symm.trans hd.found
  dsimp only at h
  split at h
  · rename_i hunpriced
    cases h
    refine .kept (.refl s) fun _ p hd => ?_
    obtain rfl := Except.ok.inj (hpool.symm.trans hd.found)
    simp [hd.rune] at hunpriced
  rename_i hpriced
  rw [Action.bind_run] at h
  unfold attempt at h
  rcases hscheduled : Payout.schedule (outboundOf inbound payer c) 0 s with ⟨x, u⟩
  have hu : s.SamePools u :=
    .of_changes ((Payout.schedule_confined _ 0).changes hscheduled) (by decide)
  -- Without an outbound the coin is settled, and the reason of the refund tells why.
  have hsettled : x ≠ .ok true → ∀ failure : String, (do
      settle inbound payer pool c
      return { done with
        reason := done.reason ++ "; fail to refund (" ++ c.text ++ "): " ++ failure } :
        Action Progress) u = (r, t) → Disposal inbound payer c s t r := by
    intro hunsent failure hrun
    rw [Action.bind_run] at hrun
    rcases hsettle : settle inbound payer pool c u with ⟨y, v⟩
    rw [hsettle] at hrun
    rcases settle_cases hs hread hpool hu hsettle with ⟨p, hexternal, rfl, rfl, hgains⟩ |
      ⟨hkept, hsame⟩
    · cases hrun
      rw [Asset.backing_of_external hexternal] at hpool
      have hrune : p.rune ≠ 0 := fun hzero =>
        hpriced (by simp [Asset.isNativeRune_of_external hexternal, hzero])
      refine .donated ⟨hexternal, hpool, hrune, ?_⟩ hgains
      rw [hscheduled]
      exact hunsent
    · obtain rfl : t = v := by cases y <;> cases hrun <;> rfl
      refine .kept hsame fun _ p hd => ?_
      rcases hkept with hnative | rfl
      · exact absurd (hnative.symm.trans hd.external) nofun
      · exact nomatch hpool.symm.trans hd.found
  rw [hscheduled] at h
  rcases x with (e | f) | _ | _
  · exact hsettled nofun e.message h
  · cases h
    exact .kept hu fun hfault => absurd rfl (hfault f)
  · exact hsettled (by simp) "no vault available" h
  · cases h
    exact .kept hu fun _ p hd => hd.unsent (congrArg Prod.fst hscheduled)

/-- The donations of a refund, coin by coin. A refund is given up at a coin whose pool cannot be
read. -/
inductive Donations (inbound : Inbound) (payer : Option String) :
    List Coin → Ledger → Ledger → Prop
  | none {s t : Ledger} (hsame : s.SamePools t) : Donations inbound payer [] s t
  | donated {c : Coin} {cs : List Coin} {p : Pool} {s t u : Ledger}
      (hd : Donates inbound payer c p s) (hgains : s.Gains t c p)
      (hrest : Donations inbound payer cs t u) : Donations inbound payer (c :: cs) s u
  | kept {c : Coin} {cs : List Coin} {s t u : Ledger}
      (hnone : ∀ p, ¬ Donates inbound payer c p s) (hsame : s.SamePools t)
      (hrest : Donations inbound payer cs t u) : Donations inbound payer (c :: cs) s u
  | stopped {c : Coin} {cs : List Coin} {s t : Ledger}
      (hnone : ∀ p, ¬ Donates inbound payer c p s) (hsame : s.SamePools t) :
      Donations inbound payer (c :: cs) s t

theorem Donations.then_same {cs : List Coin} (h : Donations inbound payer cs s t)
    (htu : t.SamePools u) : Donations inbound payer cs s u := by
  induction h with
  | none hsame => exact .none (hsame.trans htu)
  | donated hd hgains _ ih => exact .donated hd hgains (ih htu)
  | kept hnone hsame _ ih => exact .kept hnone hsame (ih htu)
  | stopped hnone hsame => exact .stopped hnone (hsame.trans htu)

/-- A single coin is donated, or all pools stay as they are. -/
theorem Donations.single (h : Donations inbound payer [c] s t) :
    (∃ p, Donates inbound payer c p s ∧ s.Gains t c p) ∨
      (∀ p, ¬ Donates inbound payer c p s) ∧ s.SamePools t := by
  cases h with
  | donated hd hgains hrest =>
    cases hrest with
    | none hsame => exact .inl ⟨_, hd, hgains.then_same hsame⟩
  | kept hnone hsame hrest =>
    cases hrest with
    | none hsame' => exact .inr ⟨hnone, hsame.trans hsame'⟩
  | stopped hnone hsame => exact .inr ⟨hnone, hsame⟩

theorem coins_donations {cs : List Coin} {r : Except Failure Progress} (hs : s.Filed)
    (hread : ∀ c ∈ cs, c.asset.reread? = some c.asset) (hfaultless : ∀ f, r ≠ .error (.fault f))
    (h : cs.foldlM (coin inbound payer) done s = (r, t)) : Donations inbound payer cs s t := by
  induction cs generalizing s done with
  | nil =>
    cases h
    exact .none (.refl _)
  | cons c cs ih =>
    rw [List.foldlM_cons, Action.bind_run] at h
    rcases hcoin : coin inbound payer done c s with ⟨x, u⟩
    have hcoined := coin_disposal hs (hread c List.mem_cons_self) hcoin
    have hu := ((coin_confined inbound payer done c).changes hcoin).filed hs
    have hrest : ∀ d ∈ cs, d.asset.reread? = some d.asset := fun d hd =>
      hread d (List.mem_cons_of_mem c hd)
    rw [hcoin] at h
    cases hcoined with
    | donated hd hgains => exact .donated hd hgains (ih hu hrest h)
    | kept hsame hnone =>
      rcases x with e | progress
      · cases h
        refine .stopped (hnone fun f hf => ?_) hsame
        exact hfaultless f (by rw [Except.error.inj hf])
      · exact .kept (hnone nofun) hsame (ih hu hrest h)

/-- A refund that no fault ends donates coin by coin. -/
theorem refund_donations {code : Word} {reason : String} {r : Except Failure Unit} (hs : s.Filed)
    (hread : ∀ c ∈ inbound.tx.coins, c.asset.reread? = some c.asset)
    (hfaultless : ∀ f, r ≠ .error (.fault f))
    (h : refund inbound code reason payer s = (r, t)) :
    Donations inbound payer inbound.tx.coins s t := by
  unfold refund at h
  rw [Action.bind_run] at h
  rcases hcoins : inbound.tx.coins.foldlM (coin inbound payer) ⟨reason, []⟩ s with ⟨x, u⟩
  rw [hcoins] at h
  rcases x with e | progress
  · cases h
    refine coins_donations hs hread (fun f hf => ?_) hcoins
    exact hfaultless f (by rw [Except.error.inj hf])
  · have htold : u.SamePools t := by
      cases h
      exact fun _ _ => rfl
    exact (coins_donations (r := .ok progress) hs hread nofun hcoins).then_same htold

end Refund

/-! ## Failed swaps -/

/-- A swap that is refused leaves the ledger as it was. -/
theorem Dispatch.dispatch_swap_refused {m : SwapRequest} {e : Failure}
    (h : dispatch (.swap m) s = (.error e, t)) : t = s := by
  unfold dispatch at h
  rcases hguarded : guarded (.swap m) s with ⟨r, u⟩
  rw [hguarded] at h
  rcases transactionally_cases (answer_confined (.swap m)) hguarded with
    ⟨o, v, rfl, hanswer, hcommit⟩ | ⟨e, -, rfl, -, rfl⟩ | ⟨f, rfl, hfault⟩
  · rcases answer_eq_ok hanswer with ⟨rfl, -⟩ | ⟨rfl, hroute⟩
    · cases h
    · -- Nothing asks for funds in a swap; even so it would be taken back.
      cases h
      obtain rfl := (handle_restores m).thenPure (fun _ => ()) _ _ _ hroute
      exact Recall.commitsTo_unique hcommit (Recall.commitsTo_checkpointed s)
  · cases h
    rfl
  · cases h
    exact rolledBack ((answer_confined (.swap m)).changes hfault)

theorem Application.runSwap_refused {m : SwapRequest} {e : Failure}
    (h : runSwap m s = (.error e, t)) : t = s := by
  rcases bind_eq_error.1 h with hrun | ⟨_, u, -, hpure⟩
  · exact Dispatch.dispatch_swap_refused hrun
  · cases hpure

theorem Application.runSwap_confined (m : SwapRequest) : (runSwap m).Confined Dispatch.tables :=
  (Dispatch.dispatch_confined (Dispatch.route_writes (.swap m))).bind fun _ => .pure ()

namespace Queue

variable {r : Rated}

theorem runOne_confined (r : Rated) : (runOne Application.runSwap r).Confined Table.all := by
  have hremoved : ∀ outcome : Option Error, Confined Table.all
      (do remove r.request.tx.id r.index; return (r.request.tx.id, outcome)) := fun outcome =>
    ((remove_confined _ _).mono (by decide)).bind fun _ => .pure _
  refine ((Application.runSwap_confined _).mono (by decide)).attempt.bind fun outcome => ?_
  cases outcome with
  | ok _ => exact hremoved none
  | error e => exact ((refund_confined _ e).mono (by decide)).bind fun _ => hremoved (some e)

/-- A swap that failed was taken back before it was refunded, and then left the queue. -/
theorem runOne_failed {i : TxId} {e : Error}
    (h : runOne Application.runSwap r s = (.ok (i, some e), t)) :
    ∃ u, refund r.request e s = (.ok (), u) ∧ u.SamePools t := by
  obtain ⟨x, u, hattempt, hrest⟩ := bind_eq_ok.1 h
  rcases attempt_eq_ok.1 hattempt with ⟨_, rfl, -⟩ | ⟨e', rfl, hrun⟩
  · obtain ⟨_, w, houtcome, hrest⟩ := bind_eq_ok.1 hrest
    cases houtcome
    obtain ⟨_, v, -, hrest⟩ := bind_eq_ok.1 hrest
    cases hrest
  · obtain rfl := Application.runSwap_refused hrun
    obtain ⟨_, v, hrefund, hrest⟩ := bind_eq_ok.1 hrest
    obtain ⟨_, w, houtcome, hrest⟩ := bind_eq_ok.1 hrest
    cases houtcome
    obtain ⟨_, _, hremove, hrest⟩ := bind_eq_ok.1 hrest
    cases hrest
    exact ⟨v, hrefund, .of_changes ((remove_confined _ _).changes hremove) (by decide)⟩

/-- The coins of a swap in a batch read back as they are. -/
theorem reads_of_batch {rs : List Rated} (hbatch : batch s = .ok rs) (hr : r ∈ rs) :
    ∀ c ∈ r.request.tx.coins, c.asset.reread? = some c.asset := by
  intro c hc
  obtain ⟨a, ha, hcoin⟩ := Option.map_eq_some_iff.1 ((batch_reads hbatch r hr).2 c hc)
  obtain rfl : a = c.asset := congrArg Coin.asset hcoin
  exact ha

/-- A swap that fails when its turn comes leaves the pools as they were before its turn, but for the
donations of its refund. Its coin is given to the pool of its asset, which gains it and nothing
else, if it is external, the pool holds RUNE and the coin could not be sent back; else no pool
changes. -/
theorem failed_swap_pools {before after : List Rated} {xs : List (TxId × Option Error)} {i : TxId}
    {e : Error} (hs : s.Filed) (hbatch : batch s = .ok (before ++ r :: after))
    (hbefore : before.mapM (runOne Application.runSwap) s = (.ok xs, u))
    (hfailed : runOne Application.runSwap r u = (.ok (i, some e), t)) :
    ∃ vault, receivingVault r.request.tx.id u = .ok vault ∧
      Refund.Donations ⟨r.request.tx, vault, u.height, u.height⟩ none r.request.tx.coins u t ∧
      ∀ c, r.request.tx.coins = [c] →
        let inbound : Inbound := ⟨r.request.tx, vault, u.height, u.height⟩
        ((∃ p, Refund.Donates inbound none c p u ∧ u.Gains t c p) ∨
          (∀ p, ¬ Refund.Donates inbound none c p u) ∧ u.SamePools t) ∧
        ((Payout.schedule (Refund.outboundOf inbound none c) 0 u).1 = .ok true →
          u.SamePools t) := by
  have hu : u.Filed := ((Confined.mapM fun r _ => runOne_confined r).changes hbefore).filed hs
  obtain ⟨v, hrefund, hsame⟩ := runOne_failed hfailed
  obtain ⟨vault, hvault, hrefund⟩ := read_bind_eq_ok.1 hrefund
  refine ⟨vault, hvault, ?_⟩
  obtain ⟨height, hheight, hrefund⟩ := read_bind_eq_ok.1 hrefund
  obtain rfl := Except.ok.inj hheight
  obtain ⟨x, w, hattempt, hpure⟩ := bind_eq_ok.1 hrefund
  cases hpure
  have hread := reads_of_batch hbatch (List.mem_append_right before List.mem_cons_self)
  have hdonations : Refund.Donations ⟨r.request.tx, vault, u.height, u.height⟩ none
      r.request.tx.coins u t := by
    rcases attempt_eq_ok.1 hattempt with ⟨_, -, hrun⟩ | ⟨_, -, hrun⟩
    · exact (Refund.refund_donations (r := .ok ()) hu hread nofun hrun).then_same hsame
    · refine (Refund.refund_donations hu hread (fun f hf => ?_) hrun).then_same hsame
      cases hf
  refine ⟨hdonations, fun c hc => ?_⟩
  have hsingle := Refund.Donations.single (hc ▸ hdonations)
  refine ⟨hsingle, fun haccepted => ?_⟩
  rcases hsingle with ⟨p, hd, -⟩ | ⟨-, hsame⟩
  · exact absurd haccepted hd.unsent
  · exact hsame

/-- Every swap that is accepted into the queue has a single coin. -/
theorem single_of_enqueue {m : SwapRequest} (h : Application.enqueue m s = (.ok (), t)) :
    ∃ c, m.tx.coins = [c] := by
  obtain ⟨_, hvalid, -⟩ := check_bind_eq_ok.1 h
  refine List.length_eq_one_iff.1 (Decidable.byContradiction fun hmany => ?_)
  unfold SwapRequest.validate at hvalid
  rw [if_pos hmany] at hvalid
  cases htx : m.tx.validate <;> rw [htx] at hvalid <;> cases hvalid

/-! A swap of ether through a pool that is closed waits in the queue, and there is no vault to send
the ether back from. -/

def closedPool : Pool := { Swap.etherPool with status := .staged }

def ether : Coin := ⟨closedPool.asset, .cap 500000000⟩

def closedSwap : SwapRequest :=
  { Swap.usdcSwap with
    tx := ⟨⟨"A1"⟩, some .eth, ⟨"0xsender"⟩, ⟨"0xvault"⟩, [ether], [], ""⟩ }

def closedLedger : Ledger :=
  (Swap.poolLedger closedPool).putRecord (Key.swap closedSwap.tx.id ⟨0, by decide⟩)
    (.swap closedSwap)

/-- The ether is given to its pool. -/
theorem closedSwap_donates :
    ∃ (i : TxId) (e : Error) (t : Ledger),
      runOne Application.runSwap ⟨closedSwap, 0, 0, 0⟩ closedLedger = (.ok (i, some e), t) ∧
        closedLedger.Gains t ether closedPool := by
  have hs : closedLedger.Filed := (Swap.filed_poolLedger closedPool).putRecord
    (k := Key.swap closedSwap.tx.id 0) (r := .swap closedSwap) (by simp [Record.FiledAt])
  have hqueued : (batch closedLedger).toOption.map (·.map fun r => (r.request, r.index)) =
      some [(closedSwap, 0)] := by decide +kernel
  have hfails : (runOne Application.runSwap ⟨closedSwap, 0, 0, 0⟩ closedLedger).1.toOption.map
      (·.2.isSome) = some true := by decide +kernel
  have hpool : Pools.find? ether.asset closedLedger = .ok (some closedPool) :=
    eq_ok_of_toOption (by decide +kernel)
  have hnowhere : receivingVault closedSwap.tx.id closedLedger = .ok none :=
    eq_ok_of_toOption (by decide +kernel)
  have hunsent : (Payout.schedule (Refund.outboundOf ⟨closedSwap.tx, none, 1, 1⟩ none ether) 0
      closedLedger).1.toOption = some false := by decide +kernel
  obtain ⟨rs, hbatch⟩ : ∃ rs, batch closedLedger = .ok rs := by
    obtain ⟨_, _, _, _, -, -, -, -, -, hbatch⟩ := batch_ok closedLedger
    exact ⟨_, hbatch⟩
  rw [hbatch] at hqueued
  obtain ⟨r, rfl, hr⟩ := List.map_eq_singleton_iff.1 (Option.some.inj hqueued)
  obtain ⟨request, index, fee, slip⟩ := r
  obtain ⟨rfl, rfl⟩ := Prod.mk.inj hr
  rcases hrun : runOne Application.runSwap ⟨closedSwap, 0, 0, 0⟩ closedLedger with
    ⟨e | ⟨i, _ | e⟩, t⟩ <;> rw [hrun] at hfails
  · cases hfails
  · cases hfails
  have hfirst : batch closedLedger = .ok ([] ++ ⟨closedSwap, 0, fee, slip⟩ :: []) := hbatch
  obtain ⟨vault, hvault, -, hsingle⟩ := failed_swap_pools hs hfirst rfl hrun
  obtain rfl := Except.ok.inj (hnowhere.symm.trans hvault)
  rcases (hsingle ether rfl).1 with ⟨p, hd, hgains⟩ | ⟨hnone, -⟩
  · obtain rfl := Option.some.inj (Except.ok.inj (hpool.symm.trans hd.pool))
    exact ⟨i, e, t, rfl, hgains⟩
  · refine absurd ⟨by decide, hpool, by decide, fun hsent => ?_⟩ (hnone closedPool)
    exact absurd (hunsent.symm.trans (congrArg Except.toOption hsent)) (by decide)

end Queue

end LiquidityNet
