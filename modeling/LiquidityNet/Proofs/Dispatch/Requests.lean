import LiquidityNet.Proofs.Action.Invariance
import LiquidityNet.Proofs.Bond.Writes
import LiquidityNet.Proofs.Ledger.Reading

/-!
# Requests for the return of funds

A node is asked for its yggdrasil funds by outbounds of the protocol's own. What they change in a
ledger is told exactly: they join the batch of the current block, and the attestation of the blank
id, if there is one, notes the height at which the first of them was scheduled.
-/

namespace LiquidityNet

open Ledger

namespace Attestations

theorem find?_eq_ok {i : TxId} {s : Ledger} {v : Attestation} :
    find? i s = .ok (some v) ↔
      ∃ w, s.get? (Key.attestation i) = some (.attestation w) ∧ w.reread? = some v := by
  unfold find?
  rw [fetch?_eq_ok]
  constructor
  · rintro (⟨-, h⟩ | ⟨r, a, hr, ha, h⟩)
    · cases h
    · cases h
      cases r with
      | attestation w => exact ⟨w, hr, ha⟩
      | _ => cases ha
  · rintro ⟨w, hw, hv⟩
    exact .inr ⟨_, v, hw, hv, rfl⟩

end Attestations

namespace Outbounds

theorem atHeight_eq_ok {h : Height} {s : Ledger} {b : OutboundBatch} :
    atHeight h s = .ok b ↔
      (s.get? (Key.outbounds h) = none ∧ b = ⟨h, []⟩) ∨
        ∃ c, s.get? (Key.outbounds h) = some (.outbounds c) ∧ c.reread? = some b := by
  unfold atHeight
  rw [fetchD_eq_ok]
  refine or_congr Iff.rfl ⟨?_, ?_⟩
  · rintro ⟨r, hr, hb⟩
    cases r with
    | outbounds c => exact ⟨c, hr, hb⟩
    | _ => cases hb
  · rintro ⟨c, hc, hb⟩
    exact ⟨_, hc, hb⟩

theorem atHeight_spec {h : Height} {s : Ledger} {b : OutboundBatch} (hs : s.Filed)
    (hb : atHeight h s = .ok b) :
    Key.outbounds b.height = Key.outbounds h ∧ b.reread? = some b := by
  rcases atHeight_eq_ok.1 hb with ⟨-, rfl⟩ | ⟨c, hc, hread⟩
  · exact ⟨rfl, rfl⟩
  · have hfiled : Key.outbounds h = Key.outbounds c.height := hs _ _ hc
    rw [OutboundBatch.reread?_height hread]
    exact ⟨hfiled.symm, OutboundBatch.reread?_reread? hread⟩

end Outbounds

/-- An outbound of the protocol's own that asks for funds. -/
structure Outbound.AsksReturn (o : Outbound) : Prop where
  memo : Text.beginsWith Memo.yggdrasilStart o.memo = true
  inbound : o.inbound = .blank
  coin : o.coin = ⟨.rune, 0⟩

theorem Outbound.AsksReturn.reread? {o : Outbound} (h : o.AsksReturn) : o.reread? = some o := by
  refine Outbound.reread?_of_asset ?_
  rw [h.coin]
  exact Asset.reread?_rune

theorem reread?_of_asksReturn {items : List Outbound} (h : ∀ o ∈ items, o.AsksReturn) :
    items.mapM Outbound.reread? = some items := by
  induction items with
  | nil => rfl
  | cons o items ih =>
    rw [List.mapM_cons, (h o List.mem_cons_self).reread?,
      ih fun p hp => h p (List.mem_cons_of_mem o hp)]
    rfl

namespace Payout

theorem append_run (h : Height) (o : Outbound) (s : Ledger) :
    Outbounds.append h o s = match Outbounds.atHeight h s with
      | .ok b => (.ok (), s.putRecord (Key.outbounds b.height)
          (.outbounds { b with items := b.items ++ [o] }))
      | .error e => (.error e, s) := by
  unfold Outbounds.append
  rw [Action.read_bind_run]
  rcases Outbounds.atHeight h s with e | b <;> rfl

theorem enqueue_run (o : Outbound) (s : Ledger) :
    enqueue o s = match Attestations.find? o.inbound s with
      | .error e => (.error e, s)
      | .ok none => Outbounds.append s.height o s
      | .ok (some v) => Outbounds.append s.height o
          (if v.outboundHeight = 0 then s.putRecord (Key.attestation v.txId)
            (.attestation { v with outboundHeight := s.height }) else s) := by
  unfold enqueue
  rw [Action.read_bind_run]
  simp only [currentHeight_run]
  rw [Action.read_bind_run]
  rcases Attestations.find? o.inbound s with e | _ | v
  · rfl
  · rfl
  · by_cases hv : v.outboundHeight = 0
    · simp only [hv, if_true]
      rfl
    · simp only [hv, if_false]

end Payout

namespace Recall

/-- The key of the attestation that requests are noted at. -/
abbrev voterKey : String := Key.attestation .blank

/-- The ledger with the height noted at the attestation of the blank id, unless one was noted
there before. -/
def noted (s : Ledger) : Ledger :=
  match Attestations.find? .blank s with
  | .ok (some v) =>
    if v.outboundHeight = 0 then
      s.putRecord voterKey (.attestation { v with outboundHeight := s.height })
    else s
  | _ => s

/-- The ledger with outbounds added to the batch of the current block. -/
def joined (b : OutboundBatch) (items : List Outbound) (s : Ledger) : Ledger :=
  (noted s).putRecord (Key.outbounds s.height) (.outbounds { b with items := b.items ++ items })

/-- The second ledger is the first one after some requests, of which the last may have failed. -/
def Requested (s t : Ledger) : Prop :=
  t = s ∨ t = noted s ∨ ∃ b items, Outbounds.atHeight s.height s = .ok b ∧ items ≠ [] ∧
    (∀ o ∈ items, o.AsksReturn) ∧ t = joined b items s

theorem noted_eq {s : Ledger} {v : Attestation} (h : Attestations.find? .blank s = .ok (some v)) :
    noted s = if v.outboundHeight = 0 then
      s.putRecord voterKey (.attestation { v with outboundHeight := s.height }) else s := by
  simp only [noted, h]

theorem noted_of_none {s : Ledger} (h : Attestations.find? .blank s = .ok none) : noted s = s := by
  simp only [noted, h]

theorem noted_height (s : Ledger) : (noted s).height = s.height := by
  unfold noted
  split
  · split <;> rfl
  · rfl

theorem voterKey_ne_outbounds (h : Height) : voterKey ≠ Key.outbounds h := by
  intro heq
  have htable := congrArg Table.ofKey? heq
  simp at htable

theorem noted_putOutbounds (s : Ledger) (h : Height) (r : Record) :
    noted (s.putRecord (Key.outbounds h) r) = (noted s).putRecord (Key.outbounds h) r := by
  have hfind : Attestations.find? .blank (s.putRecord (Key.outbounds h) r)
      = Attestations.find? .blank s :=
    fetch?_congr (by rw [get?_putRecord, if_neg (voterKey_ne_outbounds h)])
  unfold noted
  rw [hfind]
  split
  · split
    · exact putRecord_comm s (voterKey_ne_outbounds h).symm _ _
    · rfl
  · rfl

theorem noted_noted (s : Ledger) : noted (noted s) = noted s := by
  rcases hfind : Attestations.find? .blank s with e | _ | v
  · have hs : noted s = s := by simp only [noted, hfind]
    rw [hs, hs]
  · rw [noted_of_none hfind, noted_of_none hfind]
  · have hs := noted_eq hfind
    by_cases hv : v.outboundHeight = 0
    · rw [if_pos hv] at hs
      obtain ⟨w, -, hread⟩ := Attestations.find?_eq_ok.1 hfind
      have hagain : Attestations.find? .blank (noted s) =
          .ok (some { v with outboundHeight := s.height }) := by
        refine Attestations.find?_eq_ok.2 ⟨_, ?_, Attestation.reread?_reread? hread s.height⟩
        rw [hs, get?_putRecord, if_pos rfl]
      rw [noted_eq hagain, noted_height]
      split
      · rw [hs, putRecord_putRecord]
      · rfl
    · rw [if_neg hv] at hs
      rw [hs, hs]

theorem noted_joined (b : OutboundBatch) (items : List Outbound) (s : Ledger) :
    noted (joined b items s) = joined b items s := by
  unfold joined
  rw [noted_putOutbounds, noted_noted]

theorem atHeight_noted (h : Height) (s : Ledger) :
    Outbounds.atHeight h (noted s) = Outbounds.atHeight h s := by
  have hget : (noted s).get? (Key.outbounds h) = s.get? (Key.outbounds h) := by
    unfold noted
    split
    · split
      · rw [get?_putRecord, if_neg (voterKey_ne_outbounds h).symm]
      · rfl
    · rfl
  unfold Outbounds.atHeight
  rw [fetchD_run, fetchD_run, fetch?_congr hget]

theorem atHeight_joined {s : Ledger} {b : OutboundBatch} {items : List Outbound} (hs : s.Filed)
    (hb : Outbounds.atHeight s.height s = .ok b) (hitems : ∀ o ∈ items, o.AsksReturn) :
    Outbounds.atHeight s.height (joined b items s) =
      .ok { b with items := b.items ++ items } := by
  obtain ⟨-, hread⟩ := Outbounds.atHeight_spec hs hb
  refine Outbounds.atHeight_eq_ok.2 (.inr ⟨{ b with items := b.items ++ items }, ?_, ?_⟩)
  · exact (get?_putRecord (noted s) _ _ _).trans (if_pos rfl)
  · exact OutboundBatch.reread?_append hread (reread?_of_asksReturn hitems)

theorem enqueue_run_of_asksReturn {o : Outbound} {s : Ledger} (hs : s.Filed) (ho : o.AsksReturn) :
    Payout.enqueue o s = match Attestations.find? .blank s with
      | .error e => (.error e, s)
      | .ok _ => Outbounds.append s.height o (noted s) := by
  rw [Payout.enqueue_run, ho.inbound]
  rcases hfind : Attestations.find? .blank s with e | _ | v
  · rfl
  · rw [noted_of_none hfind]
  · obtain ⟨w, hw, hread⟩ := Attestations.find?_eq_ok.1 hfind
    have hkey : voterKey = Key.attestation v.txId := by
      rw [Attestation.reread?_txId hread]
      exact hs _ _ hw
    rw [noted_eq hfind, hkey]

theorem Requested.first {s u : Ledger} {o : Outbound} (hs : s.Filed) (ho : o.AsksReturn)
    {r : Except Failure Unit} (hrun : Outbounds.append s.height o (noted s) = (r, u)) :
    Requested s u := by
  rw [Payout.append_run, atHeight_noted] at hrun
  rcases hb : Outbounds.atHeight s.height s with e | b <;> rw [hb] at hrun <;> cases hrun
  · exact .inr (.inl rfl)
  · refine .inr (.inr ⟨b, [o], hb, List.cons_ne_nil o [], ?_, ?_⟩)
    · intro p hp
      rwa [List.mem_singleton.1 hp]
    · rw [(Outbounds.atHeight_spec hs hb).1]
      rfl

theorem Requested.next {s u : Ledger} {o : Outbound} {b : OutboundBatch} {items : List Outbound}
    (hs : s.Filed) (ho : o.AsksReturn) (hb : Outbounds.atHeight s.height s = .ok b)
    (hitems : ∀ o ∈ items, o.AsksReturn) {r : Except Failure Unit}
    (hrun : Outbounds.append s.height o (joined b items s) = (r, u)) : Requested s u := by
  rw [Payout.append_run, atHeight_joined hs hb hitems] at hrun
  cases hrun
  refine .inr (.inr ⟨b, items ++ [o], hb, by simp, ?_, ?_⟩)
  · intro p hp
    rcases List.mem_append.1 hp with hp | hp
    · exact hitems p hp
    · rwa [List.mem_singleton.1 hp]
  · have hkey : Key.outbounds b.height = Key.outbounds s.height :=
      (Outbounds.atHeight_spec hs hb).1
    unfold joined
    rw [hkey, putRecord_putRecord, List.append_assoc]

theorem joined_height (b : OutboundBatch) (items : List Outbound) (s : Ledger) :
    (joined b items s).height = s.height :=
  noted_height s

theorem Requested.enqueue {s t u : Ledger} {o : Outbound} (hs : s.Filed) (ht : t.Filed)
    (ho : o.AsksReturn) (hst : Requested s t) {r : Except Failure Unit}
    (hrun : Payout.enqueue o t = (r, u)) : Requested s u := by
  rw [enqueue_run_of_asksReturn ht ho] at hrun
  rcases hfind : Attestations.find? .blank t with e | v <;> rw [hfind] at hrun
  · cases hrun
    exact hst
  · rcases hst with rfl | rfl | ⟨b, items, hb, -, hitems, rfl⟩
    · exact .first hs ho hrun
    · rw [noted_noted, noted_height] at hrun
      exact .first hs ho hrun
    · rw [noted_joined, joined_height] at hrun
      exact .next hs ho hb hitems hrun

/-! ## Asking a node for its funds -/

/-- The requests made since a ledger. -/
def Asked (s t : Ledger) : Prop := t.Filed ∧ Requested s t

theorem beginsWith_yggdrasilReturn (height : Height) :
    Text.beginsWith Memo.yggdrasilStart (Memo.yggdrasilReturn height) = true := by
  rw [Text.beginsWith_iff, Memo.yggdrasilReturn, String.append_assoc, String.toList_append]
  exact List.prefix_append _ _

theorem requestOn_keeps {s : Ledger} (hs : s.Filed) (ygg target : Vault) {c : Chain}
    (hc : c.isHome = false) : (requestOn ygg target c).Keeps (Asked s) := by
  unfold requestOn
  refine .pastRead (fun _ h => h) fun height => .checkThen (fun _ h => h) fun recipient _ => ?_
  unfold Payout.scheduleAsIs
  refine .ite (fun hhome => ?_) fun _ => ?_
  · exact absurd hhome (by rw [show (Outbound.chain _) = c from rfl, hc]; decide)
  · intro t r u ht hrun
    have hu : Asked s u := by
      refine ⟨((Payout.enqueue_confined _).changes hrun).filed ht.1, ?_⟩
      exact ht.2.enqueue hs ht.1 ⟨beginsWith_yggdrasilReturn height, rfl, rfl⟩ hrun
    cases r <;> exact hu

theorem requestFrom_keeps {s : Ledger} (hs : s.Filed) (ygg : Vault) :
    (requestFrom ygg).Keeps (Asked s) := by
  unfold requestFrom
  refine .pastRead (fun _ h => h) fun _ => .pastRead (fun _ h => h) fun _ => ?_
  refine .pastRead (fun _ h => h) fun _ => .pastRead (fun _ h => h) fun target => ?_
  cases target with
  | none => exact .refuse fun _ h => h
  | some target =>
    refine .forM fun c hc => requestOn_keeps hs ygg target ?_
    have hfar := (List.mem_filter.1 hc).2
    simp only [Bool.and_eq_true, Bool.not_eq_true'] at hfar
    exact hfar.1

theorem request_keeps {s : Ledger} (hs : s.Filed) (n : Node) :
    (request n).Keeps (Asked s) := by
  unfold request
  refine .pastRead (fun _ h => h) fun ygg => ?_
  cases ygg with
  | none => exact .pure fun _ h => h
  | some ygg => exact .ite (fun _ => requestFrom_keeps hs ygg) fun _ => .pure fun _ h => h

/-! ## Requests in a checkpoint -/

theorem commitsTo_checkpointed (s : Ledger) : s.checkpointed.CommitsTo s :=
  ⟨LayeredStore.commit_checkpoint s.store, rfl⟩

theorem commitsTo_putRecord {s t : Ledger} (h : s.CommitsTo t) (k : String) (r : Record) :
    (s.putRecord k r).CommitsTo (t.putRecord k r) := by
  refine ⟨LayeredStore.commit_assign h.1, ?_⟩
  rw [h.2]
  rfl

theorem commitsTo_unique {s t u : Ledger} (ht : s.CommitsTo t) (hu : s.CommitsTo u) : t = u := by
  rw [ht.2, hu.2, Option.some.inj (ht.1.symm.trans hu.1)]

theorem commitsTo_noted (s : Ledger) : (noted s.checkpointed).CommitsTo (noted s) := by
  have hfind : Attestations.find? .blank s.checkpointed = Attestations.find? .blank s :=
    fetch?_congr (get?_checkpointed s _)
  unfold noted
  rw [hfind]
  split
  · split
    · exact commitsTo_putRecord (commitsTo_checkpointed s) _ _
    · exact commitsTo_checkpointed s
  · exact commitsTo_checkpointed s

theorem Requested.commit {s t u : Ledger} (h : Requested s.checkpointed u) (hu : u.CommitsTo t) :
    Requested s t := by
  rcases h with rfl | rfl | ⟨b, items, hb, hne, hitems, rfl⟩
  · exact .inl (commitsTo_unique hu (commitsTo_checkpointed s))
  · exact .inr (.inl (commitsTo_unique hu (commitsTo_noted s)))
  · refine .inr (.inr ⟨b, items, ?_, hne, hitems, ?_⟩)
    · unfold Outbounds.atHeight at hb ⊢
      rwa [fetchD_run, fetch?_congr (get?_checkpointed s _), ← fetchD_run] at hb
    · exact commitsTo_unique hu (commitsTo_putRecord (commitsTo_noted s) _ _)

end Recall

end LiquidityNet
