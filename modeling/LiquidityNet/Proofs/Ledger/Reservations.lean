import LiquidityNet.Fixture
import LiquidityNet.Proofs.Ledger.Traces

/-!
# Reservations

What a vault is to send of an asset stays reserved until it is signed or its signing period is over.
A vault is chosen for an outbound by what it holds beyond that, and the outbound is then reserved
with it. So no vault is ever to send more than it holds, however many outbounds are scheduled in one
block and whatever comes of each.
-/

namespace LiquidityNet

open Ledger

/-! ## What is chosen from -/

namespace Vault

/-- What a vault holds of an asset beyond what it is still to send. -/
def spare (v : Vault) (pending : List Outbound) (a : Asset) : Nat :=
  (v.held a).val - Outbounds.owed v.key a pending

/-- A vault can send an outbound if it serves its chain, which it does where it lists no chains, and
has enough to spare. -/
structure CanSend (v : Vault) (pending : List Outbound) (o : Outbound) : Prop where
  serves : v.chains = [] ∨ o.chain ∈ v.chains
  covers : o.coin.amount.val ≤ v.spare pending o.coin.asset

/-- The vault with most to spare among those that can send an outbound, and of equal ones that with
the smallest key. -/
structure IsRichest (v : Vault) (vaults : List Vault) (pending : List Outbound) (o : Outbound) :
    Prop where
  mem : v ∈ vaults
  canSend : v.CanSend pending o
  most : ∀ w ∈ vaults, w.CanSend pending o →
    w.spare pending o.coin.asset < v.spare pending o.coin.asset ∨
      w.spare pending o.coin.asset = v.spare pending o.coin.asset ∧ v.key.text ≤ w.key.text

theorem serves_iff {v : Vault} {c : Chain} :
    Payout.serves v c = true ↔ v.chains = [] ∨ c ∈ v.chains := by
  simp [Payout.serves]

/-- A vault that was read holds nothing of an asset that would not come back from a record. -/
theorem held_eq_zero {v w : Vault} {a : Asset} (hread : w.reread? = some v)
    (ha : a.reread? ≠ some a) : v.held a = 0 := by
  obtain ⟨coins, hcoins, rfl⟩ := Option.map_eq_some_iff.1 hread
  have hnone : Coin.find? a coins = none := by
    refine List.find?_eq_none.2 fun c hc heq => ha ?_
    obtain ⟨d, -, hd⟩ := mem_of_mapM hcoins hc
    obtain ⟨b, hb, hcoin⟩ := Option.map_eq_some_iff.1 (Coin.reread?_reread? _ _ hd)
    obtain rfl : b = c.asset := congrArg Coin.asset hcoin
    rwa [← beq_iff_eq.1 heq]
  show Coin.held a coins = 0
  rw [Coin.held, hnone]

end Vault

namespace Vaults

variable {s : Ledger} {status : VaultStatus} {vs : List Vault} {v w : Vault}

theorem stored_of_asgards (hs : s.Filed) (h : asgards status s = .ok vs) (hv : v ∈ vs) :
    ∃ u, s.get? (Key.vault v.key) = some (.vault u) ∧ u.reread? = some v := by
  obtain ⟨all, hall, hlisted⟩ := Query.bind_eq_ok.1 h
  cases hlisted
  obtain ⟨k, r, hr, hread⟩ := exists_of_fetchAll hall (List.mem_filter.1 hv).1
  cases r with
  | vault u =>
    have hread : u.reread? = some v := hread
    obtain ⟨coins, -, rfl⟩ := Option.map_eq_some_iff.1 hread
    obtain rfl : k = Key.vault u.key := hs _ _ hr
    exact ⟨u, hr, hread⟩
  | _ => cases hread

/-- No two vaults have one key. -/
theorem eq_of_key (hs : s.Filed) (h : asgards status s = .ok vs) (hv : v ∈ vs) (hw : w ∈ vs)
    (hkey : v.key = w.key) : v = w := by
  obtain ⟨u, hu, hread⟩ := stored_of_asgards hs h hv
  obtain ⟨u', hu', hread'⟩ := stored_of_asgards hs h hw
  rw [hkey, hu'] at hu
  cases hu
  exact Option.some.inj (hread.symm.trans hread')

end Vaults

namespace Ledger

variable {s t : Ledger} {pending : List Outbound} {vaults : List Vault}

/-- What a vault is chosen by: the outbounds of the signing period that are still to be signed, and
the active asgard vaults. -/
structure Offers (s : Ledger) (pending : List Outbound) (vaults : List Vault) : Prop where
  pending : ∃ period, Governance.value .signingTransactionPeriod s = .ok period ∧
    Outbounds.pendingWithin period s = .ok pending
  vaults : Vaults.asgards .active s = .ok vaults

theorem Offers.unique {pending' : List Outbound} {vaults' : List Vault}
    (h : s.Offers pending vaults) (h' : s.Offers pending' vaults') :
    pending = pending' ∧ vaults = vaults' := by
  obtain ⟨period, hperiod, hpending⟩ := h.pending
  obtain ⟨period', hperiod', hpending'⟩ := h'.pending
  obtain rfl := Except.ok.inj (hperiod.symm.trans hperiod')
  exact ⟨Except.ok.inj (hpending.symm.trans hpending'),
    Except.ok.inj (h.vaults.symm.trans h'.vaults)⟩

/-- No active asgard vault is to send more of an asset than it holds. -/
structure WithinMeans (s : Ledger) : Prop where
  filed : s.Filed
  height : 1 ≤ s.height
  period : ∀ period, Governance.value .signingTransactionPeriod s = .ok period → 0 ≤ period
  owed : ∀ pending vaults, s.Offers pending vaults → ∀ v ∈ vaults, ∀ a,
    Outbounds.owed v.key a pending ≤ (v.held a).val

end Ledger

/-! ## The choice -/

namespace Payout

variable {s : Ledger} {pending : List Outbound} {vaults : List Vault} {o : Outbound}

/-- One vault with what it has to spare does not come before another. -/
def Follows (x best : Amount × PublicKey) : Prop :=
  x.1 < best.1 ∨ x.1 = best.1 ∧ best.2.text ≤ x.2.text

theorem Follows.refl (x : Amount × PublicKey) : Follows x x := .inr ⟨rfl, String.le_refl _⟩

theorem Follows.trans {x y z : Amount × PublicKey} (hxy : Follows x y) (hyz : Follows y z) :
    Follows x z := by
  rcases hxy with hxy | ⟨hxy, hkey⟩ <;> rcases hyz with hyz | ⟨hyz, hkey'⟩
  · exact .inl (Nat.lt_trans hxy hyz)
  · exact .inl (hyz ▸ hxy)
  · exact .inl (hxy ▸ hyz)
  · exact .inr ⟨hxy.trans hyz, String.le_trans hkey' hkey⟩

theorem better_cases (x y : Amount × PublicKey) :
    better (some x) y = some y ∧ Follows x y ∨ better (some x) y = some x ∧ Follows y x := by
  unfold better
  dsimp only
  split
  · rename_i hbetter
    refine .inl ⟨rfl, hbetter.imp id fun hequal => ⟨hequal.1.symm, ?_⟩⟩
    exact String.not_lt.1 (String.lt_asymm hequal.2)
  · rename_i hworse
    refine .inr ⟨rfl, ?_⟩
    by_cases hequal : y.1 = x.1
    · exact .inr ⟨hequal, String.not_lt.1 fun hless => hworse (.inr ⟨hequal, hless⟩)⟩
    · refine .inl (Nat.lt_of_le_of_ne (Nat.not_lt.1 fun hless => hworse (.inl hless)) ?_)
      exact fun hval => hequal (Amount.val_inj.1 hval)

theorem foldl_better_some (xs : List (Amount × PublicKey)) (x : Amount × PublicKey) :
    ∃ best, xs.foldl better (some x) = some best ∧ (best = x ∨ best ∈ xs) ∧ Follows x best ∧
      ∀ y ∈ xs, Follows y best := by
  induction xs generalizing x with
  | nil => exact ⟨x, rfl, .inl rfl, .refl x, fun _ => nofun⟩
  | cons y xs ih =>
    rw [List.foldl_cons]
    rcases better_cases x y with ⟨hbetter, hfollows⟩ | ⟨hbetter, hfollows⟩ <;> rw [hbetter]
    · obtain ⟨best, hfold, hmem, hbest, hall⟩ := ih y
      exact ⟨best, hfold, .inr (List.mem_cons.2 hmem), hfollows.trans hbest,
        List.forall_mem_cons.2 ⟨hbest, hall⟩⟩
    · obtain ⟨best, hfold, hmem, hbest, hall⟩ := ih x
      exact ⟨best, hfold, hmem.imp_right (List.mem_cons_of_mem y), hbest,
        List.forall_mem_cons.2 ⟨hfollows.trans hbest, hall⟩⟩

/-- What is read of the vaults that serve a chain: their keys, and what they have to spare. -/
theorem spare_run {a : Asset} {c : Chain}
    (hfit : ∀ v ∈ vaults, Outbounds.owed v.key a pending < 0x10000000000000000) :
    ∃ spare, (vaults.filter (serves · c)).mapM (fun v => do
        return (← unreserved pending a v, v.key) : Vault → Query (Amount × PublicKey)) s =
        .ok spare ∧
      (∀ x ∈ spare, ∃ v ∈ vaults, serves v c = true ∧ x.1.val = v.spare pending a ∧
        x.2 = v.key) ∧
      ∀ v ∈ vaults, serves v c = true → ∃ x ∈ spare, x.1.val = v.spare pending a ∧ x.2 = v.key := by
  have hrun : ∀ v ∈ vaults, ∃ x, (do return (← unreserved pending a v, v.key) :
      Query (Amount × PublicKey)) s = .ok x ∧ x.1.val = v.spare pending a ∧ x.2 = v.key := by
    intro v hv
    obtain ⟨x, hx⟩ := unreserved_ok (hfit v hv)
    exact ⟨(x, v.key), by rw [Query.bind_run, Query.compute_run, hx]; rfl, unreserved_eq_ok hx, rfl⟩
  obtain ⟨spare, hspare⟩ := Query.mapM_ok fun v hv =>
    (hrun v (List.mem_filter.1 hv).1).imp fun _ hx => hx.1
  refine ⟨spare, hspare, fun x hx => ?_, fun v hv hserves => ?_⟩
  · obtain ⟨v, hv, hread⟩ := Query.mem_of_mapM hspare hx
    obtain ⟨hmem, hserves⟩ := List.mem_filter.1 hv
    obtain ⟨y, hy, hval, hkey⟩ := hrun v hmem
    obtain rfl := Except.ok.inj (hread.symm.trans hy)
    exact ⟨v, hmem, hserves, hval, hkey⟩
  · obtain ⟨x, hx, hread⟩ := Query.exists_of_mapM hspare (List.mem_filter.2 ⟨hv, hserves⟩)
    obtain ⟨y, hy, hval, hkey⟩ := hrun v hv
    obtain rfl := Except.ok.inj (hread.symm.trans hy)
    exact ⟨x, hx, hval, hkey⟩

/-- The richest vault is chosen, and none exactly where none can send the outbound. -/
theorem signer?_spec (h : s.Offers pending vaults)
    (hfit : ∀ v ∈ vaults, Outbounds.owed v.key o.coin.asset pending < 0x10000000000000000) :
    (signer? o s = .ok none ∧ ∀ v ∈ vaults, ¬ v.CanSend pending o) ∨
      ∃ v : Vault, signer? o s = .ok (some v.key) ∧ v.IsRichest vaults pending o := by
  obtain ⟨period, hperiod, hpending⟩ := h.pending
  obtain ⟨spare, hspare, hvault, hlisted⟩ := spare_run (s := s) (c := o.chain) hfit
  have hrun : signer? o s =
      .ok (((spare.filter fun x => o.coin.amount ≤ x.1).foldl better none).map (·.2)) := by
    unfold signer?
    rw [Query.bind_run, hperiod]
    dsimp only
    rw [Query.bind_run, hpending]
    dsimp only
    rw [Query.bind_run, h.vaults]
    dsimp only
    rw [Query.bind_run, hspare]
    rfl
  have hcan : ∀ v ∈ vaults, v.CanSend pending o →
      ∃ x ∈ spare.filter fun x => o.coin.amount ≤ x.1,
        x.1.val = v.spare pending o.coin.asset ∧ x.2 = v.key := by
    intro v hv hsend
    obtain ⟨x, hx, hval, hkey⟩ := hlisted v hv (Vault.serves_iff.2 hsend.serves)
    refine ⟨x, List.mem_filter.2 ⟨hx, decide_eq_true ?_⟩, hval, hkey⟩
    exact Amount.le_def.2 (hval ▸ hsend.covers)
  rw [hrun]
  rcases hlist : (spare.filter fun x => o.coin.amount ≤ x.1) with _ | ⟨x, xs⟩ <;>
    rw [hlist] at hcan ⊢
  · refine .inl ⟨rfl, fun v hv hsend => ?_⟩
    obtain ⟨x, hx, -⟩ := hcan v hv hsend
    cases hx
  · obtain ⟨best, hfold, hmem, hbest, hall⟩ := foldl_better_some xs x
    have hmem : best ∈ spare.filter fun x => o.coin.amount ≤ x.1 := hlist ▸ List.mem_cons.2 hmem
    obtain ⟨hspared, hcovers⟩ := List.mem_filter.1 hmem
    obtain ⟨v, hv, hserves, hval, hkey⟩ := hvault best hspared
    refine .inr ⟨v, ?_, hv, ⟨Vault.serves_iff.1 hserves, ?_⟩, fun w hw hsend => ?_⟩
    · rw [List.foldl_cons, better, hfold, ← hkey]
      rfl
    · exact hval ▸ Amount.le_def.1 (of_decide_eq_true hcovers)
    · obtain ⟨y, hy, hyval, hykey⟩ := hcan w hw hsend
      have hfollows : ∀ z ∈ x :: xs, Follows z best := List.forall_mem_cons.2 ⟨hbest, hall⟩
      rw [← hval, ← hyval, ← hkey, ← hykey]
      exact (hfollows y hy).imp Amount.lt_def.1 (And.imp_left (congrArg Amount.val))

theorem offers_of_signer? {choice : Option PublicKey} (h : signer? o s = .ok choice) :
    ∃ pending vaults, s.Offers pending vaults := by
  obtain ⟨period, hperiod, h⟩ := Query.bind_eq_ok.1 h
  obtain ⟨pending, hpending, h⟩ := Query.bind_eq_ok.1 h
  obtain ⟨vaults, hvaults, -⟩ := Query.bind_eq_ok.1 h
  exact ⟨pending, vaults, ⟨period, hperiod, hpending⟩, hvaults⟩

/-- What is reserved never exceeds what an amount can hold. -/
theorem signer?_sound (o : Outbound) : (signer? o).Faultless WithinMeans := by
  refine signer?_faultless_of o (fun s hs => hs.height) (fun s period hs h => hs.period period h)
    fun s period pending vaults hs hvalue hpending hvaults v hv => ?_
  have howed := hs.owed pending vaults ⟨⟨period, hvalue, hpending⟩, hvaults⟩ v hv o.coin.asset
  exact Nat.lt_of_le_of_lt howed (v.held o.coin.asset).isLt

theorem signer?_of_withinMeans (hs : s.WithinMeans) (h : s.Offers pending vaults) :
    (signer? o s = .ok none ∧ ∀ v ∈ vaults, ¬ v.CanSend pending o) ∨
      ∃ v : Vault, signer? o s = .ok (some v.key) ∧ v.IsRichest vaults pending o :=
  signer?_spec h fun v hv =>
    Nat.lt_of_le_of_lt (hs.owed pending vaults h v hv _) (v.held o.coin.asset).isLt

end Payout

/-! ## One outbound -/

section

variable {s t u : Ledger} {o : Outbound} {least : Amount}

/-- The outbound with the vault that is to send it. -/
def Outbound.under (o : Outbound) (key : PublicKey) : Outbound := { o with vault := some key }

/-- In the records an outbound joined the batch of the current height, and no other batch
changed. -/
structure Ledger.Enqueues (s t : Ledger) (b : OutboundBatch) (o : Outbound) : Prop where
  batch : Outbounds.atHeight s.height s = .ok b
  joined : t.get? (Key.outbounds s.height) = some (.outbounds { b with items := b.items ++ [o] })
  others : ∀ h, Key.outbounds h ≠ Key.outbounds s.height →
    t.get? (Key.outbounds h) = s.get? (Key.outbounds h)

namespace Payout

/-- What comes of an outbound to another chain that names no vault. Where it is refused, no batch
changes; it is declined for want of a vault only; else it joins the batch of the block under the
richest vault. -/
inductive Outcome (o : Outbound) (least : Amount) (s : Ledger) :
    Except Failure Bool → Ledger → Prop
  | refused {e : Error} {t : Ledger}
    (batches : ∀ h, t.get? (Key.outbounds h) = s.get? (Key.outbounds h)) :
    Outcome o least s (.error (.refused e)) t
  | declined {fee : Amount} {pending : List Outbound} {vaults : List Vault}
    (placed : IsPlaced o least fee s) (offers : s.Offers pending vaults)
    (lacking : ∀ v ∈ vaults, ¬ v.CanSend pending (net o fee)) : Outcome o least s (.ok false) s
  | queued {fee : Amount} {pending : List Outbound} {vaults : List Vault} {v : Vault}
    {b : OutboundBatch} {t : Ledger} (placed : IsPlaced o least fee s)
    (offers : s.Offers pending vaults) (richest : v.IsRichest vaults pending (net o fee))
    (enqueued : s.Enqueues t b ((net o fee).under v.key)) :
    Outcome o least s (.ok true) t

theorem get?_noted (v : Attestation) (s : Ledger) (h : Height) :
    (noted v s).get? (Key.outbounds h) = s.get? (Key.outbounds h) := by
  rw [noted, get?_putRecord, if_neg]
  intro hkey
  have htable := congrArg Table.ofKey? hkey
  simp at htable

theorem append_enqueues (hu : u.Filed)
    (hsame : ∀ k, u.get? (Key.outbounds k) = s.get? (Key.outbounds k))
    (h : Outbounds.append s.height o u = (.ok (), t)) : ∃ b, s.Enqueues t b o := by
  have hbatch := Outbounds.atHeight_congr (hsame s.height)
  rw [append_run, hbatch] at h
  rcases hb : Outbounds.atHeight s.height s with e | b <;> rw [hb] at h <;> cases h
  have hkey := (Outbounds.atHeight_spec hu (hbatch.trans hb)).1
  refine ⟨b, hb, by rw [get?_putRecord, if_pos hkey.symm], fun k hk => ?_⟩
  rw [get?_putRecord, if_neg fun heq => hk (heq.trans hkey), hsame]

theorem enqueue_enqueues (hs : s.Filed) (h : enqueue o s = (.ok (), t)) :
    ∃ b, s.Enqueues t b o := by
  rw [enqueue_run] at h
  rcases hfind : Attestations.find? o.inbound s with e | _ | v <;> rw [hfind] at h
  · cases h
  · exact append_enqueues hs (fun _ => rfl) h
  · dsimp only at h
    split at h
    · exact append_enqueues (u := noted v s) (hs.putRecord rfl) (get?_noted v s) h
    · exact append_enqueues hs (fun _ => rfl) h

theorem schedule_away_run {fee : Amount} (hplaced : IsPlaced o least fee s)
    (haway : o.chain.isHome = false) (hvault : o.vault = none) :
    schedule o least s = match signer? (net o fee) s with
      | .error e => (.error e, s)
      | .ok none => (.ok false, s)
      | .ok (some key) =>
        (enqueue ((net o fee).under key) >>= fun _ => pure true : Action Bool) s := by
  rw [schedule_run hplaced]
  unfold place
  have hchain : ¬ (net o fee).chain.isHome = true := by simp [haway]
  have hunnamed : ¬ (net o fee).vault.isSome = true := by simp [hvault]
  rw [if_neg hchain, if_neg hunnamed, Action.read_bind_run]
  rcases signer? (net o fee) s with e | _ | key <;> rfl

theorem schedule_outcome (hs : s.WithinMeans) (haway : o.chain.isHome = false)
    (hvault : o.vault = none) {r : Except Failure Bool} (h : schedule o least s = (r, t)) :
    Outcome o least s r t := by
  rcases schedule_cases h with ⟨rfl, e, rfl⟩ | ⟨fee, hplaced⟩
  · exact .refused fun _ => rfl
  rw [schedule_away_run hplaced haway hvault] at h
  rcases hsigner : signer? (net o fee) s with (e | f) | choice
  · rw [hsigner] at h
    cases h
    exact .refused fun _ => rfl
  · exact absurd hsigner (signer?_sound _ s f hs)
  obtain ⟨pending, vaults, hoffers⟩ := offers_of_signer? hsigner
  rcases signer?_of_withinMeans hs hoffers (o := net o fee) with
    ⟨hnone, hlacking⟩ | ⟨v, hkey, hrich⟩
  · rw [hnone] at h
    cases h
    exact .declined hplaced hoffers hlacking
  rw [hkey] at h
  dsimp only at h
  rw [Action.bind_run] at h
  rcases hrun : enqueue ((net o fee).under v.key) s with ⟨(e | f) | _, u⟩ <;>
    rw [hrun] at h <;> cases h
  · refine .refused fun k => ?_
    rcases enqueue_failed hrun nofun with rfl | ⟨w, e, -, -, -, rfl⟩
    · rfl
    · exact get?_noted w s k
  · exact absurd hrun (enqueue_faultless _ s f _)
  · obtain ⟨b, henqueued⟩ := enqueue_enqueues hs.filed hrun
    exact .queued hplaced hoffers hrich henqueued

/-- An outbound is declined exactly where it is placed but no vault can send it. -/
theorem schedule_declined_iff (hs : s.WithinMeans) (haway : o.chain.isHome = false)
    (hvault : o.vault = none) {r : Except Failure Bool} (h : schedule o least s = (r, t)) :
    r = .ok false ↔ ∃ fee pending vaults, IsPlaced o least fee s ∧ s.Offers pending vaults ∧
      ∀ v ∈ vaults, ¬ v.CanSend pending (net o fee) := by
  constructor
  · rintro rfl
    cases schedule_outcome hs haway hvault h with
    | declined placed offers lacking => exact ⟨_, _, _, placed, offers, lacking⟩
  · rintro ⟨fee, pending, vaults, hplaced, hoffers, hlacking⟩
    rw [schedule_away_run hplaced haway hvault] at h
    rcases signer?_of_withinMeans hs hoffers (o := net o fee) with ⟨hnone, -⟩ | ⟨v, -, hrich⟩
    · rw [hnone] at h
      exact (congrArg Prod.fst h).symm
    · exact absurd hrich.canSend (hlacking v hrich.mem)

end Payout

/-! ## What is reserved -/

theorem Outbound.eq_of_reread? {p : Outbound} (h : o.reread? = some p) :
    ∃ a, o.coin.asset.reread? = some a ∧ p = { o with coin := { o.coin with asset := a } } := by
  obtain ⟨coin, hcoin, rfl⟩ := Option.map_eq_some_iff.1 h
  obtain ⟨a, ha, rfl⟩ := Option.map_eq_some_iff.1 hcoin
  exact ⟨a, ha, rfl⟩

namespace Ledger

variable {b c : OutboundBatch} {os : List Outbound}

theorem Enqueues.pending_eq (hs : s.Filed) (h : s.Enqueues t b o)
    (hc : Outbounds.atHeight s.height t = .ok c) :
    ∃ p, o.reread? = some p ∧ c.pending = b.pending ++ OutboundBatch.pending ⟨s.height, [p]⟩ := by
  have hb := (Outbounds.atHeight_spec hs h.batch).2
  obtain ⟨items, hitems, hsame⟩ := Option.map_eq_some_iff.1 hb
  obtain rfl : items = b.items := congrArg OutboundBatch.items hsame
  rcases Outbounds.atHeight_eq_ok.1 hc with ⟨hnone, -⟩ | ⟨d, hd, hread⟩
  · rw [h.joined] at hnone
    cases hnone
  rw [h.joined] at hd
  cases hd
  obtain ⟨read, hmap, rfl⟩ := Option.map_eq_some_iff.1 hread
  replace hmap : (b.items ++ [o]).mapM Outbound.reread? = some read := hmap
  rw [List.mapM_append, hitems] at hmap
  rcases hp : o.reread? with _ | p <;> rw [List.mapM_cons, hp] at hmap <;> cases hmap
  exact ⟨p, rfl, List.filter_append ..⟩

theorem Enqueues.others_get? (hheight : 1 ≤ s.height) (h : s.Enqueues t b o) {k : Height}
    (hne : k ≠ s.height) (hk : 1 ≤ k) :
    t.get? (Key.outbounds k) = s.get? (Key.outbounds k) := by
  refine h.others k fun heq => hne (Key.outbounds_inj ?_ ?_ heq)
  · have hk := Signed.le_def.1 hk
    rw [Signed.val_one] at hk
    omega
  · have hheight := Signed.le_def.1 hheight
    rw [Signed.val_one] at hheight
    omega

/-- After an outbound joined the batch of the block, it is to be signed beside all that was, unless
it was sent already. -/
theorem Enqueues.pendingWithin {period : Signed} (hs : s.Filed) (hheight : 1 ≤ s.height)
    (hperiod : 0 ≤ period) (h : s.Enqueues t b o) (hsame : t.height = s.height)
    (hos : Outbounds.pendingWithin period t = .ok os) :
    ∃ before p, Outbounds.pendingWithin period s = .ok before ∧ o.reread? = some p ∧
      os = before ++ OutboundBatch.pending ⟨s.height, [p]⟩ := by
  obtain ⟨_, -, hread⟩ := Outbounds.pendingWithin_snoc hheight hperiod
  obtain ⟨_, c, -, hc, -⟩ := (hread t hsame os).1 hos
  obtain ⟨p, hp, hjoined⟩ := h.pending_eq hs hc
  obtain ⟨before, hbefore, rfl⟩ := (Outbounds.pendingWithin_grown hheight hperiod hsame
    (fun k hne hk => h.others_get? hheight hne hk) h.batch hc hjoined).1 hos
  exact ⟨before, p, hbefore, hp, rfl⟩

end Ledger

theorem Outbounds.owed_pending_le (k : PublicKey) (a : Asset) (height : Height) (p : Outbound) :
    owed k a (OutboundBatch.pending ⟨height, [p]⟩) ≤
      if p.vault = some k ∧ p.coin.asset = a then p.coin.amount.val else 0 := by
  rw [← owed_singleton]
  unfold OutboundBatch.pending
  rcases hsent : p.sent with _ | tx <;> simp [hsent, owed]

/-- The vault that was chosen holds the coin beside all that it is to send, whatever asset the coin
comes back as. -/
theorem Vault.IsRichest.covers {pending : List Outbound} {vaults : List Vault} {v w : Vault}
    {p : Outbound} (h : v.IsRichest vaults pending o) (hread : w.reread? = some v)
    (hp : (o.under v.key).reread? = some p)
    (howed : ∀ a, Outbounds.owed v.key a pending ≤ (v.held a).val) :
    Outbounds.owed v.key p.coin.asset pending + p.coin.amount.val ≤ (v.held p.coin.asset).val := by
  obtain ⟨a, ha, rfl⟩ := Outbound.eq_of_reread? hp
  have hcovers : o.coin.amount.val ≤ v.spare pending o.coin.asset := h.canSend.covers
  have hbefore := howed a
  show Outbounds.owed v.key a pending + o.coin.amount.val ≤ (v.held a).val
  unfold Vault.spare at hcovers
  by_cases hsame : o.coin.asset.reread? = some o.coin.asset
  · obtain rfl : o.coin.asset = a := Option.some.inj (hsame.symm.trans ha)
    have hown := howed o.coin.asset
    omega
  · rw [Vault.held_eq_zero hread hsame, Amount.val_zero] at hcovers
    omega

namespace Payout

/-- Scheduling an outbound to another chain leaves every vault within its means. -/
theorem schedule_withinMeans (hs : s.WithinMeans) (haway : o.chain.isHome = false)
    (hvault : o.vault = none) (least : Amount) : ((schedule o least s).2).WithinMeans := by
  rcases hrun : schedule o least s with ⟨r, t⟩
  have hchanges : Changes [.attestations, .outbounds] s t :=
    (schedule_away_confined haway least).changes hrun
  have hvalue : Governance.value .signingTransactionPeriod t =
      Governance.value .signingTransactionPeriod s :=
    Governance.value_congr hchanges.settings
      (hchanges.get?_eq (Table.ofKey?_mimir _) (by decide))
  have hlisted : Vaults.asgards .active t = Vaults.asgards .active s :=
    Vaults.asgards_congr fun k hk => hchanges.get?_eq hk (by decide)
  refine ⟨hchanges.filed hs.filed, hchanges.height ▸ hs.height, hvalue ▸ hs.period, ?_⟩
  rintro after vaults ⟨⟨period, hperiod, hafter⟩, hvaults⟩ w hw a
  rw [hvalue] at hperiod
  rw [hlisted] at hvaults
  have hunchanged (hsame : ∀ h, t.get? (Key.outbounds h) = s.get? (Key.outbounds h)) :
      Outbounds.owed w.key a after ≤ (w.held a).val :=
    hs.owed after vaults ⟨⟨period, hperiod,
      (Outbounds.pendingWithin_congr hchanges.height hsame).1 hafter⟩, hvaults⟩ w hw a
  cases schedule_outcome hs haway hvault hrun with
  | refused batches => exact hunchanged batches
  | declined => exact hunchanged fun _ => rfl
  | @queued _ _ _ v _ _ _ offers richest enqueued =>
    obtain ⟨before, p, hbefore, hp, rfl⟩ := enqueued.pendingWithin hs.filed hs.height
      (hs.period period hperiod) hchanges.height hafter
    obtain ⟨rfl, rfl⟩ := offers.unique ⟨⟨period, hperiod, hbefore⟩, hvaults⟩
    have howed := hs.owed _ _ offers
    have hadded := Outbounds.owed_pending_le w.key a s.height p
    rw [Outbounds.owed_append]
    split at hadded
    · rename_i hjoins
      obtain ⟨hkey, rfl⟩ := hjoins
      have hname : p.vault = some v.key := by
        obtain ⟨_, -, rfl⟩ := Outbound.eq_of_reread? hp
        rfl
      obtain rfl := Vaults.eq_of_key hs.filed hvaults richest.mem hw
        (Option.some.inj (hname.symm.trans hkey))
      obtain ⟨_, -, hread⟩ := Vaults.stored_of_asgards hs.filed hvaults hw
      have hcovers := richest.covers hread hp (howed v hw)
      omega
    · have hown := howed w hw a
      omega

/-- Where an outbound comes back from a record as it is, what is to be signed can be read after it
as it could before. -/
theorem schedule_offers {pending : List Outbound} {vaults : List Vault} (hs : s.WithinMeans)
    (haway : o.chain.isHome = false) (hvault : o.vault = none)
    (hasset : o.coin.asset.reread? = some o.coin.asset) (least : Amount)
    (h : s.Offers pending vaults) : ∃ after, ((schedule o least s).2).Offers after vaults := by
  rcases hrun : schedule o least s with ⟨r, t⟩
  have hchanges : Changes [.attestations, .outbounds] s t :=
    (schedule_away_confined haway least).changes hrun
  obtain ⟨period, hperiod, hpending⟩ := h.pending
  have hperiod' : Governance.value .signingTransactionPeriod t = .ok period := by
    rwa [Governance.value_congr hchanges.settings
      (hchanges.get?_eq (Table.ofKey?_mimir _) (by decide))]
  have hvaults : Vaults.asgards .active t = .ok vaults := by
    rw [Vaults.asgards_congr fun k hk => hchanges.get?_eq hk (by decide), h.vaults]
  have hunchanged (hsame : ∀ h, t.get? (Key.outbounds h) = s.get? (Key.outbounds h)) :
      t.Offers pending vaults :=
    ⟨⟨period, hperiod', (Outbounds.pendingWithin_congr hchanges.height hsame).2 hpending⟩, hvaults⟩
  cases schedule_outcome hs haway hvault hrun with
  | refused batches => exact ⟨pending, hunchanged batches⟩
  | declined => exact ⟨pending, hunchanged fun _ => rfl⟩
  | @queued fee _ _ v _ _ _ _ _ enqueued =>
    have hread : ((net o fee).under v.key).reread? = some ((net o fee).under v.key) :=
      Outbound.reread?_of_asset hasset
    have hjoined : Outbounds.atHeight s.height t = .ok _ := Outbounds.atHeight_eq_ok.2
      (.inr ⟨_, enqueued.joined, OutboundBatch.reread?_append
        (Outbounds.atHeight_spec hs.filed enqueued.batch).2 (by rw [List.mapM_cons, hread]; rfl)⟩)
    exact ⟨_, ⟨period, hperiod', (Outbounds.pendingWithin_grown hs.height
      (hs.period period hperiod) hchanges.height
      (fun k hne hk => enqueued.others_get? hs.height hne hk) enqueued.batch hjoined
      (List.filter_append ..)).2 ⟨pending, hpending, rfl⟩⟩, hvaults⟩

end Payout

end

/-! ## Any number of outbounds -/

namespace Payout

/-- The ledger after some outbounds were scheduled one after the other, each with the least amount
that may be left of it, whatever came of them. -/
def scheduleEach (calls : List (Outbound × Amount)) (s : Ledger) : Ledger :=
  calls.foldl (fun s c => (schedule c.1 c.2 s).2) s

variable {s : Ledger} {calls : List (Outbound × Amount)}

theorem scheduleEach_withinMeans (hs : s.WithinMeans)
    (hcalls : ∀ c ∈ calls, c.1.chain.isHome = false ∧ c.1.vault = none) :
    (scheduleEach calls s).WithinMeans := by
  induction calls generalizing s with
  | nil => exact hs
  | cons c calls ih =>
    obtain ⟨haway, hvault⟩ := hcalls c List.mem_cons_self
    exact ih (schedule_withinMeans hs haway hvault c.2) fun d hd =>
      hcalls d (List.mem_cons_of_mem c hd)

theorem scheduleEach_offers {pending : List Outbound} {vaults : List Vault} (hs : s.WithinMeans)
    (hcalls : ∀ c ∈ calls, c.1.chain.isHome = false ∧ c.1.vault = none)
    (hassets : ∀ c ∈ calls, c.1.coin.asset.reread? = some c.1.coin.asset)
    (h : s.Offers pending vaults) : ∃ after, (scheduleEach calls s).Offers after vaults := by
  induction calls generalizing s pending with
  | nil => exact ⟨pending, h⟩
  | cons c calls ih =>
    obtain ⟨haway, hvault⟩ := hcalls c List.mem_cons_self
    obtain ⟨after, hafter⟩ := schedule_offers hs haway hvault (hassets c List.mem_cons_self) c.2 h
    exact ih (schedule_withinMeans hs haway hvault c.2)
      (fun d hd => hcalls d (List.mem_cons_of_mem c hd))
      (fun d hd => hassets d (List.mem_cons_of_mem c hd)) hafter

/-- However many outbounds to other chains are scheduled at one height, no vault is ever to send
more than it holds. Each of them comes to an `Outcome` in the ledger that those before it left, and
is declined exactly where no vault can send what its fee leaves of it. -/
theorem vaults_stay_within_means (hs : s.WithinMeans)
    (hcalls : ∀ c ∈ calls, c.1.chain.isHome = false ∧ c.1.vault = none) :
    (scheduleEach calls s).WithinMeans ∧
      (∀ before o least after, calls = before ++ (o, least) :: after → ∀ r t,
        schedule o least (scheduleEach before s) = (r, t) →
          Outcome o least (scheduleEach before s) r t ∧
            (r = .ok false ↔ ∃ fee pending vaults, IsPlaced o least fee (scheduleEach before s) ∧
              (scheduleEach before s).Offers pending vaults ∧
              ∀ v ∈ vaults, ¬ v.CanSend pending (net o fee))) ∧
      ((∀ c ∈ calls, c.1.coin.asset.reread? = some c.1.coin.asset) → ∀ pending vaults,
        s.Offers pending vaults → ∃ after, (scheduleEach calls s).Offers after vaults) := by
  refine ⟨scheduleEach_withinMeans hs hcalls, ?_, fun hassets pending vaults =>
    scheduleEach_offers hs hcalls hassets⟩
  rintro before o least after rfl r t hrun
  obtain ⟨haway, hvault⟩ := hcalls (o, least) (by simp)
  have hbefore := scheduleEach_withinMeans hs fun c hc => hcalls c (List.mem_append_left _ hc)
  exact ⟨schedule_outcome hbefore haway hvault hrun,
    schedule_declined_iff hbefore haway hvault hrun⟩

/-! Two vaults hold bitcoin, of which the first is to send some already, and a third serves another
chain. Four outbounds are scheduled: to the richer vault, to the other as the richer one then, to
none, and to the smaller key of two equals. -/

def bitcoin (amount : Nat) : Coin := ⟨.of .btc "BTC", .cap amount⟩

def bitcoinPayment (amount : Nat) : Outbound :=
  .make .btc ⟨"bc1dest"⟩ (bitcoin amount) ⟨"A1"⟩

def vaultOf (name : String) (chains : List Chain) (amount : Nat) : Vault :=
  { Vault.make 1 .active .asgard (Fixture.key name) chains with coins := [bitcoin amount] }

def threeVaults : List Vault :=
  [vaultOf "ada" [] 500, vaultOf "ben" [.btc] 500, vaultOf "cyd" [.eth] 900]

def reservedLedger : Ledger :=
  (threeVaults.foldl (fun s v => s.putRecord (Key.vault v.key) (.vault v))
    (Ledger.empty (.ofEnvironment .mocknet) (.clamp 2) : Ledger)).putRecord (Key.outbounds 1)
    (.outbounds ⟨1, [(bitcoinPayment 100).under (Fixture.key "ada"),
      { (bitcoinPayment 450).under (Fixture.key "ben") with sent := some ⟨"B2"⟩ }]⟩)

theorem reservedLedger_offers :
    reservedLedger.Offers [(bitcoinPayment 100).under (Fixture.key "ada")] threeVaults := by
  have h : (Outbounds.pendingWithin (.clamp 300) reservedLedger).toOption =
      some [(bitcoinPayment 100).under (Fixture.key "ada")] ∧
    (Governance.value .signingTransactionPeriod reservedLedger).toOption = some (.clamp 300) ∧
    (Vaults.asgards .active reservedLedger).toOption = some threeVaults := by decide +kernel
  exact ⟨⟨_, eq_ok_of_toOption h.2.1, eq_ok_of_toOption h.1⟩, eq_ok_of_toOption h.2.2⟩

theorem reservedLedger_withinMeans : reservedLedger.WithinMeans where
  filed := by
    have hempty := filed_empty (.ofEnvironment .mocknet) (.clamp 2)
    have hada := hempty.putRecord (r := .vault (vaultOf "ada" [] 500)) rfl
    have hben := hada.putRecord (r := .vault (vaultOf "ben" [.btc] 500)) rfl
    have hcyd := hben.putRecord (r := .vault (vaultOf "cyd" [.eth] 900)) rfl
    exact hcyd.putRecord rfl
  height := by decide
  period := by
    obtain ⟨⟨period, hperiod, -⟩, -⟩ := reservedLedger_offers
    have hvalue : (Governance.value .signingTransactionPeriod reservedLedger).toOption =
        some (.clamp 300) := by decide +kernel
    rintro p hp
    rw [eq_ok_of_toOption hvalue] at hp
    cases hp
    decide
  owed := by
    intro pending vaults hoffers v hv a
    obtain ⟨rfl, rfl⟩ := hoffers.unique reservedLedger_offers
    rw [Outbounds.owed_singleton]
    split
    · rename_i hjoins
      obtain ⟨hkey, rfl⟩ := hjoins
      have hall : ∀ w ∈ threeVaults, Fixture.key "ada" = w.key →
          100 ≤ (w.held (.of .btc "BTC")).val := by decide +kernel
      exact hall v hv (Option.some.inj hkey)
    · exact Nat.zero_le _

/-- The vault of each outbound of the current batch. -/
def signers (s : Ledger) : Option (List (Option PublicKey)) :=
  (Outbounds.atHeight s.height s).toOption.map fun b => b.items.map (·.vault)

theorem reservedLedger_stays :
    let calls := [300, 200, 250, 150].map fun n => (bitcoinPayment n, (0 : Amount))
    (∀ c ∈ calls, c.1.chain.isHome = false ∧ c.1.vault = none) ∧
      (scheduleEach calls reservedLedger).WithinMeans ∧
      signers (scheduleEach calls reservedLedger) =
        some [some (Fixture.key "ben"), some (Fixture.key "ada"), some (Fixture.key "ada")] := by
  intro calls
  have hcalls : ∀ c ∈ calls, c.1.chain.isHome = false ∧ c.1.vault = none := by decide +kernel
  exact ⟨hcalls, (vaults_stay_within_means reservedLedger_withinMeans hcalls).1, by decide +kernel⟩

end Payout

end LiquidityNet
