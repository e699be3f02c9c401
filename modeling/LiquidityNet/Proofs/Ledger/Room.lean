import LiquidityNet.Proofs.Bond.Shares
import LiquidityNet.Proofs.Dispatch.Requests
import LiquidityNet.Proofs.Ledger.Completion
import LiquidityNet.Proofs.Ledger.Nodes

/-!
# Room for outbounds

To choose a vault for an outbound, what each vault is still to send of the coin's asset is summed
up, and the sum has to be an amount. An outbound whose vault is chosen so never exceeds what the
vault holds. One that names its vault adds to what is owed unchecked, so there has to be room for
it; scheduling it uses up no more room than its coin takes.
-/

namespace LiquidityNet

open Ledger

/-! ## The heights that count -/

/-- The digits of a padded number are those of the number. -/
theorem Text.ofDigitChars_padded (width n : Nat) :
    Nat.ofDigitChars 10 (padded width (n : Int)).toList 0 = n := by
  have hnat : ¬ ((n : Int) < 0) := by omega
  simp only [padded, if_neg hnat, String.toList_ofList, Int.natAbs_natCast,
    Nat.ofDigitChars_append, Nat.ofDigitChars_replicate_zero, Nat.mul_zero,
    Nat.ofDigitChars_ten_toDigits]

theorem Key.outbounds_inj {h k : Height} (hh : 0 ≤ h.val) (hk : 0 ≤ k.val)
    (heq : outbounds h = outbounds k) : h = k := by
  have hpadded : Text.padded 20 h.val = Text.padded 20 k.val := Key.append_cancel heq
  obtain ⟨n, hn⟩ := Int.eq_ofNat_of_zero_le hh
  obtain ⟨m, hm⟩ := Int.eq_ofNat_of_zero_le hk
  rw [hn, hm] at hpadded
  have hdigits := congrArg (fun s => Nat.ofDigitChars 10 s.toList 0) hpadded
  simp only [Text.ofDigitChars_padded] at hdigits
  exact Signed.val_inj.1 (by rw [hn, hm, hdigits])

/-- The last height of an interval that is not empty, apart. -/
theorem Signed.interval_snoc {lo hi : Signed} (h : lo ≤ hi) :
    ∃ before, interval lo hi = before ++ [hi] ∧ ∀ x ∈ before, lo ≤ x ∧ x < hi := by
  have hle := le_def.1 h
  have hlower := lo.lower
  have hupper := hi.upper
  obtain ⟨n, hn⟩ := Int.eq_ofNat_of_zero_le (Int.sub_nonneg_of_le hle)
  refine ⟨(List.range n).map fun k : Nat => clamp (lo.val + (k : Int)), ?_, ?_⟩
  · have hlast : clamp (lo.val + (n : Int)) = hi := by
      rw [← hn, show lo.val + (hi.val - lo.val) = hi.val by omega, clamp_val]
    rw [interval, hn, show ((n : Int) + 1).toNat = n + 1 from rfl, List.range_succ, List.map_append,
      List.map_singleton, hlast]
  · simp only [List.mem_map, List.mem_range, le_def, lt_def]
    rintro x ⟨k, hk, rfl⟩
    simp only [val_clamp]
    omega

theorem Query.mapM_congr {α β : Type} {f : α → Query β} {s t : Ledger} {as : List α}
    (h : ∀ a ∈ as, f a t = f a s) : as.mapM f t = as.mapM f s := by
  induction as with
  | nil => rfl
  | cons a as ih =>
    have htail := ih fun b hb => h b (List.mem_cons_of_mem a hb)
    rw [List.mapM_cons, Query.bind_run, Query.bind_run, h a List.mem_cons_self]
    cases f a s with
    | error e => rfl
    | ok b =>
      simp only [Query.bind_run, htail]
      rfl

theorem Governance.value_nonneg {x : Setting} {s : Ledger} {v : Signed}
    (hsettings : 0 ≤ s.settings.value x) (h : value x s = .ok v) : 0 ≤ v := by
  unfold value valueAtLeast at h
  split at h
  · cases h
    split
    · assumption
    · exact hsettings
  · cases h
    exact hsettings

theorem Governance.value_congr {x : Setting} {s t : Ledger} (hsettings : t.settings = s.settings)
    (h : t.get? (Key.mimir x.name) = s.get? (Key.mimir x.name)) : value x t = value x s := by
  have hmimir : mimir? x.name t = mimir? x.name s := fetch?_congr h
  unfold value valueAtLeast
  rw [hmimir, hsettings]

theorem Governance.amount_congr {x : Setting} {s t : Ledger} (hsettings : t.settings = s.settings)
    (h : t.get? (Key.mimir x.name) = s.get? (Key.mimir x.name)) : amount x t = amount x s :=
  Query.bind_congr (value_congr hsettings h) fun _ => rfl

namespace Outbounds

variable {s t : Ledger} {period : Signed} {o : Outbound} {os : List Outbound}

theorem atHeight_congr {h : Height} (hget : t.get? (Key.outbounds h) = s.get? (Key.outbounds h)) :
    Outbounds.atHeight h t = Outbounds.atHeight h s := by
  unfold Outbounds.atHeight
  rw [fetchD_run, fetchD_run, fetch?_congr hget]

theorem pendingWithin_eq_ok :
    pendingWithin period s = .ok os ↔ ∃ start batches, s.height.sub period = .ok start ∧
      (Signed.interval (max start 1) s.height).mapM (fun h =>
        do return (← Outbounds.atHeight h).pending : Height → Query (List Outbound)) s =
        .ok batches ∧ os = batches.flatten := by
  unfold pendingWithin
  constructor
  · intro h
    obtain ⟨height, hheight, h⟩ := Query.bind_eq_ok.1 h
    obtain rfl := Except.ok.inj hheight
    obtain ⟨start, hstart, h⟩ := Query.bind_eq_ok.1 h
    obtain ⟨batches, hbatches, h⟩ := Query.bind_eq_ok.1 h
    cases h
    exact ⟨start, batches, Query.compute_eq_ok.1 hstart, hbatches, rfl⟩
  · rintro ⟨start, batches, hstart, hbatches, rfl⟩
    refine Query.bind_eq_ok.2 ⟨s.height, rfl, Query.bind_eq_ok.2 ⟨start, ?_, ?_⟩⟩
    · exact Query.compute_eq_ok.2 hstart
    · exact Query.bind_eq_ok.2 ⟨batches, hbatches, rfl⟩

theorem pendingWithin_congr (hheight : t.height = s.height)
    (h : ∀ h : Height, t.get? (Key.outbounds h) = s.get? (Key.outbounds h)) :
    pendingWithin period t = .ok os ↔ pendingWithin period s = .ok os := by
  have hbatch : ∀ k : Height,
      (do return (← Outbounds.atHeight k).pending : Query (List Outbound)) t =
        (do return (← Outbounds.atHeight k).pending : Query (List Outbound)) s := by
    intro k
    rw [Query.bind_run, Query.bind_run, atHeight_congr (h k)]
    rfl
  simp only [pendingWithin_eq_ok, hheight, Query.mapM_congr fun k _ => hbatch k]

/-- What is to be signed comes from the batches of the earlier heights and then from the batch of
the current one. -/
theorem pendingWithin_snoc (hheight : 1 ≤ s.height) (hperiod : 0 ≤ period) :
    ∃ earlier : List Height, (∀ h ∈ earlier, 1 ≤ h ∧ h ≠ s.height) ∧
      ∀ t : Ledger, t.height = s.height → ∀ os, pendingWithin period t = .ok os ↔
        ∃ before b, earlier.mapM (fun h =>
            do return (← Outbounds.atHeight h).pending : Height → Query (List Outbound)) t =
            .ok before ∧ Outbounds.atHeight s.height t = .ok b ∧
          os = before.flatten ++ b.pending := by
  have hval := Signed.le_def.1 hheight
  rw [Signed.val_one] at hval
  obtain ⟨start, hstart⟩ := Signed.sub_ok_of_nonneg (a := s.height) (b := period)
    (Signed.le_def.2 (by rw [Signed.val_zero]; omega)) hperiod
  have hfrom : max start 1 ≤ s.height := by
    have hsub := Signed.sub_eq_ok_iff.1 hstart
    simp only [Signed.le_def, Signed.val_max, Signed.val_zero, Signed.val_one] at *
    omega
  obtain ⟨earlier, hinterval, hearlier⟩ := Signed.interval_snoc hfrom
  refine ⟨earlier, fun h hh => ?_, fun t hsame os => ?_⟩
  · obtain ⟨hfirst, hless⟩ := hearlier h hh
    simp only [Signed.le_def, Signed.lt_def, Signed.val_max, Signed.val_one] at hfirst hless
    refine ⟨Signed.le_def.2 (by rw [Signed.val_one]; omega), ?_⟩
    rintro rfl
    exact Int.lt_irrefl _ hless
  rw [pendingWithin_eq_ok, hsame]
  constructor
  · rintro ⟨first, batches, hfirst, hbatches, rfl⟩
    obtain rfl := Except.ok.inj (hstart.symm.trans hfirst)
    rw [hinterval, List.mapM_append] at hbatches
    obtain ⟨before, hbefore, hbatches⟩ := Query.bind_eq_ok.1 hbatches
    obtain ⟨last, hlast, hbatches⟩ := Query.bind_eq_ok.1 hbatches
    cases hbatches
    rw [List.mapM_cons, Query.bind_run, Query.bind_run] at hlast
    rcases hb : Outbounds.atHeight s.height t with e | b <;> rw [hb] at hlast <;> cases hlast
    exact ⟨before, b, hbefore, rfl, by simp⟩
  · rintro ⟨before, b, hbefore, hb, rfl⟩
    refine ⟨start, before ++ [b.pending], hstart, ?_, by simp⟩
    rw [hinterval, List.mapM_append]
    refine Query.bind_eq_ok.2 ⟨before, hbefore, Query.bind_eq_ok.2 ⟨[b.pending], ?_, rfl⟩⟩
    rw [List.mapM_cons, Query.bind_run, Query.bind_run, hb]
    rfl

/-- What joins the batch of the current height comes last among the outbounds that are to be
signed. -/
theorem pendingWithin_grown {b c : OutboundBatch} {joined : List Outbound}
    (hheight : 1 ≤ s.height) (hperiod : 0 ≤ period) (hsame : t.height = s.height)
    (hother : ∀ h : Height, h ≠ s.height → 1 ≤ h →
      t.get? (Key.outbounds h) = s.get? (Key.outbounds h))
    (hs : Outbounds.atHeight s.height s = .ok b) (ht : Outbounds.atHeight s.height t = .ok c)
    (hjoined : c.pending = b.pending ++ joined) :
    pendingWithin period t = .ok os ↔
      ∃ before, pendingWithin period s = .ok before ∧ os = before ++ joined := by
  obtain ⟨earlier, hearlier, hread⟩ := pendingWithin_snoc hheight hperiod
  have hbefore : ∀ k ∈ earlier, (do return (← Outbounds.atHeight k).pending :
      Query (List Outbound)) t = (do return (← Outbounds.atHeight k).pending :
      Query (List Outbound)) s := by
    intro k hk
    obtain ⟨hpos, hne⟩ := hearlier k hk
    rw [Query.bind_run, Query.bind_run, atHeight_congr (hother k hne hpos)]
    rfl
  simp only [hread t hsame, hread s rfl, hs, ht, Except.ok.injEq, Query.mapM_congr hbefore]
  constructor
  · rintro ⟨before, _, hmap, rfl, rfl⟩
    exact ⟨_, ⟨before, b, hmap, rfl, rfl⟩, by rw [hjoined, List.append_assoc]⟩
  · rintro ⟨_, ⟨before, _, hmap, rfl, rfl⟩, rfl⟩
    exact ⟨before, c, hmap, rfl, by rw [hjoined, List.append_assoc]⟩

/-- An outbound that joins the batch of the current height comes last among those that are to be
signed. -/
theorem pendingWithin_joined {b : OutboundBatch} (hheight : 1 ≤ s.height) (hperiod : 0 ≤ period)
    (hsame : t.height = s.height) (ho : o.sent = none)
    (hother : ∀ h : Height, h ≠ s.height → 1 ≤ h →
      t.get? (Key.outbounds h) = s.get? (Key.outbounds h))
    (hs : Outbounds.atHeight s.height s = .ok b)
    (ht : Outbounds.atHeight s.height t = .ok { b with items := b.items ++ [o] })
    (h : pendingWithin period t = .ok os) :
    ∃ before, pendingWithin period s = .ok before ∧ os = before ++ [o] :=
  (pendingWithin_grown hheight hperiod hsame hother hs ht
    (by simp [OutboundBatch.pending, ho])).1 h

end Outbounds

/-! ## Room -/

namespace Outbounds

/-- What a vault is still to send of an asset, out of a list of outbounds. -/
def owed (k : PublicKey) (a : Asset) (os : List Outbound) : Nat :=
  Amount.total ((os.filter fun o => o.vault == some k && o.coin.asset == a).map (·.coin.amount))

theorem owed_le_total (k : PublicKey) (a : Asset) (os : List Outbound) :
    owed k a os ≤ Amount.total (os.map (·.coin.amount)) :=
  Amount.total_filter_le _ _ os

theorem owed_append (k : PublicKey) (a : Asset) (os ps : List Outbound) :
    owed k a (os ++ ps) = owed k a os + owed k a ps := by
  rw [owed, List.filter_append, List.map_append, Amount.total_append]
  rfl

theorem owed_singleton (k : PublicKey) (a : Asset) (o : Outbound) :
    owed k a [o] = if o.vault = some k ∧ o.coin.asset = a then o.coin.amount.val else 0 := by
  simp only [owed, List.filter_cons, List.filter_nil, Bool.and_eq_true, beq_iff_eq]
  split <;> rfl

end Outbounds

namespace Coin

/-- What some coins come to of an asset. -/
def sumOf (a : Asset) (cs : List Coin) : Nat :=
  Amount.total ((cs.filter fun c => c.asset == a).map (·.amount))

theorem sumOf_append (a : Asset) (cs ds : List Coin) :
    sumOf a (cs ++ ds) = sumOf a cs + sumOf a ds := by
  rw [sumOf, List.filter_append, List.map_append, Amount.total_append]
  rfl

theorem sumOf_cons (a : Asset) (c : Coin) (cs : List Coin) :
    sumOf a (c :: cs) = (if c.asset = a then c.amount.val else 0) + sumOf a cs := by
  simp only [sumOf, List.filter_cons, beq_iff_eq]
  split
  · rfl
  · exact (Nat.zero_add _).symm

theorem sumOf_le_total (a : Asset) (cs : List Coin) :
    sumOf a cs ≤ Amount.total (cs.map (·.amount)) :=
  Amount.total_filter_le _ _ cs

theorem held_le_total (a : Asset) (cs : List Coin) :
    (held a cs).val ≤ Amount.total (cs.map (·.amount)) := by
  unfold held
  split
  · rename_i c hc
    exact Amount.le_total (List.mem_map_of_mem (List.mem_of_find?_eq_some hc))
  · exact Nat.zero_le _

theorem sumOf_perm {cs ds : List Coin} (a : Asset) (h : cs.Perm ds) : sumOf a cs = sumOf a ds :=
  Amount.total_perm ((h.filter _).map _)

end Coin

namespace Ledger

variable {s t : Ledger} {os ps : List Outbound} {cs ds : List Coin} {Ts : List Table}

/-- What each active vault is still to send of an asset once some outbounds have joined, or what it
holds if that is more, leaves room for some coins. -/
structure HasRoom (os : List Outbound) (cs : List Coin) (s : Ledger) : Prop where
  filed : s.Filed
  height : 1 ≤ s.height
  period : 0 ≤ s.settings.value .signingTransactionPeriod
  room : ∀ period pending vaults, Governance.value .signingTransactionPeriod s = .ok period →
    Outbounds.pendingWithin period s = .ok pending → Vaults.asgards .active s = .ok vaults →
    ∀ v ∈ vaults, ∀ a, max (Outbounds.owed v.key a (pending ++ os)) (v.held a).val +
      Coin.sumOf a cs < 0x10000000000000000

/-- There is room if all that is to be sent, or all that a vault holds, leaves room for all coins
together, of whatever assets they are. -/
theorem HasRoom.of_totals (hfiled : s.Filed) (hheight : 1 ≤ s.height)
    (hperiod : 0 ≤ s.settings.value .signingTransactionPeriod)
    (hroom : ∀ period pending vaults, Governance.value .signingTransactionPeriod s = .ok period →
      Outbounds.pendingWithin period s = .ok pending → Vaults.asgards .active s = .ok vaults →
      ∀ v ∈ vaults, max (Amount.total ((pending ++ os).map (·.coin.amount)))
        (Amount.total (v.coins.map (·.amount))) + Amount.total (cs.map (·.amount)) <
          0x10000000000000000) : HasRoom os cs s where
  filed := hfiled
  height := hheight
  period := hperiod
  room := by
    intro period pending vaults hread hpending hvaults v hv a
    have hbound := hroom period pending vaults hread hpending hvaults v hv
    have howed := Outbounds.owed_le_total v.key a (pending ++ os)
    have hheld : (v.held a).val ≤ _ := Coin.held_le_total a v.coins
    have hcoins := Coin.sumOf_le_total a cs
    omega

/-- Room depends on nothing but the heights, the outbounds, the vaults and governance. -/
theorem HasRoom.congr (hs : HasRoom os cs s) (hfiled : t.Filed)
    (hsettings : t.settings = s.settings) (hheight : t.height = s.height)
    (h : ∀ k T, Table.ofKey? k = some T → T ∈ [Table.outbounds, .vaults, .mimirs] →
      t.get? k = s.get? k) : HasRoom os cs t where
  filed := hfiled
  height := hheight ▸ hs.height
  period := hsettings ▸ hs.period
  room := by
    intro period pending vaults hperiod hpending hvaults
    refine hs.room period pending vaults ?_ ?_ ?_
    · rwa [← Governance.value_congr hsettings (h _ .mimirs (Table.ofKey?_mimir _) (by decide))]
    · exact (Outbounds.pendingWithin_congr hheight fun k =>
        h _ .outbounds (Table.ofKey?_outbounds k) (by decide)).1 hpending
    · rwa [← Vaults.asgards_congr fun k hk => h k .vaults hk (by decide)]

theorem HasRoom.of_changes (hs : HasRoom os cs s) (h : Changes Ts s t)
    (hTs : ∀ T ∈ [Table.outbounds, .vaults, .mimirs], T ∉ Ts) : HasRoom os cs t :=
  hs.congr (h.filed hs.filed) h.settings h.height fun _ T hk hT => h.get?_eq hk (hTs T hT)

theorem HasRoom.alike (hs : HasRoom os cs s) (h : Alike s t) : HasRoom os cs t :=
  hs.congr (fun k r hr => hs.filed k r (h.records k ▸ hr)) h.settings h.height
    fun k _ _ _ => h.records k

/-- Room is room for all that takes up no more of any vault. -/
theorem HasRoom.weaken (hs : HasRoom os cs s)
    (h : ∀ pending (v : Vault) a,
      max (Outbounds.owed v.key a (pending ++ ps)) (v.held a).val + Coin.sumOf a ds ≤
        max (Outbounds.owed v.key a (pending ++ os)) (v.held a).val + Coin.sumOf a cs) :
    HasRoom ps ds s where
  filed := hs.filed
  height := hs.height
  period := hs.period
  room := by
    intro period pending vaults hperiod hpending hvaults v hv a
    exact Nat.lt_of_le_of_lt (h pending v a)
      (hs.room period pending vaults hperiod hpending hvaults v hv a)

/-- Room for more coins is room for fewer. -/
theorem HasRoom.drop (cs : List Coin) (hs : HasRoom os (cs ++ ds) s) : HasRoom os ds s := by
  refine hs.weaken fun pending v a => ?_
  rw [Coin.sumOf_append]
  omega

theorem HasRoom.perm (hs : HasRoom os cs s) (h : cs.Perm ds) : HasRoom os ds s :=
  hs.weaken fun _ _ a => Nat.add_le_add_left (Nat.le_of_eq (Coin.sumOf_perm a h).symm) _

/-- Room for an outbound to join is room without it. -/
theorem HasRoom.forget (hs : HasRoom os cs s) : HasRoom [] cs s := by
  refine hs.weaken fun pending v a => ?_
  rw [List.append_nil, Outbounds.owed_append]
  omega

/-- An outbound takes up no more room than the coin it was made of. -/
theorem HasRoom.spend {c : Coin} {o : Outbound} (hs : HasRoom [] (c :: cs) s)
    (hasset : o.coin.asset = c.asset) (hamount : o.coin.amount ≤ c.amount) :
    HasRoom [o] cs s := by
  refine hs.weaken fun pending v a => ?_
  have htaken : Outbounds.owed v.key a [o] ≤ if c.asset = a then c.amount.val else 0 := by
    rw [Outbounds.owed_singleton, hasset]
    split
    · rename_i hsent
      rw [if_pos hsent.2]
      exact hamount
    · exact Nat.zero_le _
  rw [Coin.sumOf_cons, List.append_nil, Outbounds.owed_append]
  omega

end Ledger

/-! ## Scheduling -/

/-- The coins that scheduling an outbound needs room for. -/
def Outbound.claim (o : Outbound) : List Coin := if o.vault.isSome then [o.coin] else []

theorem Ledger.HasRoom.unclaimed {o : Outbound} {os : List Outbound} {cs : List Coin} {s : Ledger}
    (hs : HasRoom os (o.coin :: cs) s) : HasRoom os (o.claim ++ cs) s := by
  unfold Outbound.claim
  split
  · exact hs
  · exact hs.drop [o.coin]

section

variable {cs : List Coin} {o : Outbound} {s : Ledger}

theorem Outbounds.atHeight_appended {h : Height} {b : OutboundBatch} (hs : s.Filed)
    (hread : o.reread? = some o) (hb : Outbounds.atHeight h s = .ok b) :
    Outbounds.atHeight h (s.putRecord (Key.outbounds b.height)
      (.outbounds { b with items := b.items ++ [o] })) = .ok { b with items := b.items ++ [o] } := by
  obtain ⟨hkey, hbatch⟩ := atHeight_spec hs hb
  have hitems : [o].mapM Outbound.reread? = some [o] := by
    rw [List.mapM_cons, hread]
    rfl
  refine atHeight_eq_ok.2 (.inr ⟨_, ?_, OutboundBatch.reread?_append hbatch hitems⟩)
  rw [get?_putRecord, if_pos hkey.symm]

/-- An outbound that joins the current batch is owed from then on. -/
theorem Outbounds.append_room (cs : List Coin) (hsent : o.sent = none)
    (hread : o.reread? = some o) (height : Height) :
    (append height o).Completes (fun s => HasRoom [o] cs s ∧ s.height = height)
      (fun _ => HasRoom [] cs) (HasRoom [] cs) := by
  rintro s r t ⟨hs, rfl⟩ hrun
  rw [Payout.append_run] at hrun
  rcases hb : Outbounds.atHeight s.height s with (e | f) | b <;> rw [hb] at hrun <;> cases hrun
  · exact hs.forget
  · exact atHeight_faultless (P := fun _ => True) s.height s f trivial hb
  have hkey := (atHeight_spec hs.filed hb).1
  have hchanges : Changes [.outbounds] s (s.putRecord (Key.outbounds b.height)
      (.outbounds { b with items := b.items ++ [o] })) :=
    changes_putRecord List.mem_cons_self (Table.ofKey?_outbounds _) rfl
  have hother : ∀ h : Height, h ≠ s.height → 1 ≤ h →
      (s.putRecord (Key.outbounds b.height) (.outbounds { b with items := b.items ++ [o] })).get?
        (Key.outbounds h) = s.get? (Key.outbounds h) := by
    intro h hne hpos
    have hheight := Signed.le_def.1 hs.height
    have hpos := Signed.le_def.1 hpos
    rw [Signed.val_one] at hheight hpos
    rw [get?_putRecord, hkey, if_neg]
    exact fun heq => hne (Key.outbounds_inj (by omega) (by omega) heq)
  have hown := atHeight_appended hs.filed hread hb
  refine ⟨hchanges.filed hs.filed, hs.height, hs.period, ?_⟩
  intro period pending vaults hperiod hpending hvaults v hv a
  have hsame : Governance.value .signingTransactionPeriod s = .ok period := by
    rwa [← Governance.value_congr hchanges.settings
      (hchanges.get?_eq (Table.ofKey?_mimir _) (by decide))]
  have hstored : Vaults.asgards .active s = .ok vaults := by
    rwa [← Vaults.asgards_congr fun k hk => hchanges.get?_eq hk (by decide)]
  obtain ⟨before, hbefore, rfl⟩ := pendingWithin_joined hs.height
    (Governance.value_nonneg hs.period hsame) hchanges.height hsent hother hb hown hpending
  have hroom := hs.room period before vaults hsame hbefore hstored v hv a
  rwa [List.append_nil]

namespace Payout

theorem enqueue_room (hsent : o.sent = none) (hread : o.reread? = some o) :
    (enqueue o).Completes (HasRoom [o] cs) (fun _ => HasRoom [] cs) (HasRoom [] cs) := by
  have hforget : ∀ s, HasRoom [o] cs s → HasRoom [] cs s := fun _ hs => hs.forget
  refine .readThen .currentHeight hforget fun height => ?_
  refine .restrict (P := fun s => HasRoom [o] cs s ∧ s.height = height) ?_
    fun s hs => ⟨hs.1, Except.ok.inj hs.2⟩
  refine .pastRead (Attestations.find?_faultless _) (fun _ hs => hs.1.forget) fun v => ?_
  have hjoined := Outbounds.append_room cs hsent hread height
  cases v with
  | none => exact hjoined
  | some v =>
    refine .ite (fun _ => ?_) fun _ => hjoined
    have hnoted : (Attestations.save { v with outboundHeight := height }).Sustains
        fun s => HasRoom [o] cs s ∧ s.height = height :=
      .of_confined (.put _ _) (Attestations.save_confined _) fun s t hchanges hs =>
        ⟨hs.1.of_changes hchanges (by decide), hchanges.height.trans hs.2⟩
    exact (hnoted.mono_refusal fun _ hs => hs.1.forget).bind fun _ => hjoined

/-! The choice of a vault -/

theorem unreserved_ok {pending : List Outbound} {a : Asset} {v : Vault}
    (h : Outbounds.owed v.key a pending < 0x10000000000000000) :
    ∃ x, unreserved pending a v = .ok x := by
  obtain ⟨reserved, hsum⟩ := Amount.sum_ok h
  exact ⟨_, except_bind_eq_ok.2 ⟨reserved, hsum, rfl⟩⟩

theorem unreserved_eq_ok {pending : List Outbound} {a : Asset} {v : Vault} {x : Amount}
    (h : unreserved pending a v = .ok x) :
    x.val = (v.held a).val - Outbounds.owed v.key a pending := by
  obtain ⟨reserved, hsum, h⟩ := except_bind_eq_ok.1 h
  cases h
  rw [Amount.val_minus, Amount.sum_eq_ok hsum]
  rfl

theorem mem_of_foldl_better {xs : List (Amount × PublicKey)} {x : Amount × PublicKey}
    {best : Option (Amount × PublicKey)} (h : xs.foldl better best = some x) :
    x ∈ xs ∨ best = some x := by
  induction xs generalizing best with
  | nil => exact .inr h
  | cons y xs ih =>
    rcases ih h with hmem | hbest
    · exact .inl (List.mem_cons_of_mem y hmem)
    unfold better at hbest
    split at hbest
    · exact .inl (Option.some.inj hbest ▸ List.mem_cons_self)
    · split at hbest
      · exact .inl (Option.some.inj hbest ▸ List.mem_cons_self)
      · exact .inr hbest

/-- A vault is chosen without a fault where what each active vault is still to send adds up. -/
theorem signer?_faultless_of {P : Ledger → Prop} (o : Outbound) (hheight : ∀ s, P s → 1 ≤ s.height)
    (hperiod : ∀ s period, P s → Governance.value .signingTransactionPeriod s = .ok period →
      0 ≤ period)
    (howed : ∀ s period pending vaults, P s →
      Governance.value .signingTransactionPeriod s = .ok period →
      Outbounds.pendingWithin period s = .ok pending → Vaults.asgards .active s = .ok vaults →
      ∀ v ∈ vaults, Outbounds.owed v.key o.coin.asset pending < 0x10000000000000000) :
    (signer? o).Faultless P := by
  refine (Governance.value_faultless _).bind fun period => ?_
  refine .known (p := 0 ≤ period) (fun s hs => hperiod s period hs.1 hs.2) fun hperiod => ?_
  refine (Outbounds.pendingWithin_faultless hperiod fun s hs => ?_).bind fun pending => ?_
  · have hfirst := Signed.le_def.1 (hheight s hs.1)
    rw [Signed.val_one] at hfirst
    exact Signed.le_def.2 (by rw [Signed.val_zero]; omega)
  refine (Vaults.asgards_faultless _).bind fun vaults => ?_
  refine .past (.mapM fun v hv => .past (.compute ?_) fun _ => .pure _) fun _ => .pure _
  rintro s ⟨⟨⟨hs, hvalue⟩, hpending⟩, hvaults⟩
  exact unreserved_ok
    (howed s period pending vaults hs hvalue hpending hvaults v (List.mem_filter.1 hv).1)

theorem signer?_faultless (o : Outbound) : (signer? o).Faultless (HasRoom [] cs) := by
  refine signer?_faultless_of o (fun s hs => hs.height)
    (fun s period hs h => Governance.value_nonneg hs.period h)
    fun s period pending vaults hs hvalue hpending hvaults v hv => ?_
  have hroom := hs.room period pending vaults hvalue hpending hvaults v hv o.coin.asset
  rw [List.append_nil] at hroom
  omega

/-- The vault that is chosen covers the outbound beside what it is still to send. -/
theorem signer?_covers {key : PublicKey} (h : signer? o s = .ok (some key)) :
    ∃ period pending vaults, Governance.value .signingTransactionPeriod s = .ok period ∧
      Outbounds.pendingWithin period s = .ok pending ∧ Vaults.asgards .active s = .ok vaults ∧
      ∃ v ∈ vaults, v.key = key ∧ Outbounds.owed key o.coin.asset pending + o.coin.amount.val ≤
        max (Outbounds.owed key o.coin.asset pending) (v.held o.coin.asset).val := by
  obtain ⟨period, hperiod, h⟩ := Query.bind_eq_ok.1 h
  obtain ⟨pending, hpending, h⟩ := Query.bind_eq_ok.1 h
  obtain ⟨vaults, hvaults, h⟩ := Query.bind_eq_ok.1 h
  obtain ⟨spare, hspare, h⟩ := Query.bind_eq_ok.1 h
  obtain ⟨⟨x, k⟩, hbest, rfl⟩ := Option.map_eq_some_iff.1 (Except.ok.inj h)
  obtain ⟨hmem, hcovers⟩ := List.mem_filter.1
    ((mem_of_foldl_better hbest).resolve_right nofun)
  obtain ⟨v, hv, hread⟩ := Query.mem_of_mapM hspare hmem
  obtain ⟨y, hy, hread⟩ := Query.bind_eq_ok.1 hread
  cases hread
  have hspared := unreserved_eq_ok (Query.compute_eq_ok.1 hy)
  have hle : o.coin.amount.val ≤ x.val := of_decide_eq_true hcovers
  refine ⟨period, pending, vaults, hperiod, hpending, hvaults, v, (List.mem_filter.1 hv).1, rfl, ?_⟩
  show Outbounds.owed v.key _ _ + _ ≤ max (Outbounds.owed v.key _ _) _
  omega

end Payout

/-- An outbound for which a vault was chosen needs no room of its own. -/
theorem Ledger.HasRoom.assign {key : PublicKey} (hs : HasRoom [] cs s)
    (h : Payout.signer? o s = .ok (some key)) : HasRoom [{ o with vault := some key }] cs s where
  filed := hs.filed
  height := hs.height
  period := hs.period
  room := by
    intro period pending vaults hperiod hpending hvaults w hw a
    obtain ⟨_, _, _, hp, hq, hr, v, hv, rfl, hcovers⟩ := Payout.signer?_covers h
    obtain rfl := Except.ok.inj (hp.symm.trans hperiod)
    obtain rfl := Except.ok.inj (hq.symm.trans hpending)
    obtain rfl := Except.ok.inj (hr.symm.trans hvaults)
    have hown := hs.room _ _ _ hp hq hr w hw a
    rw [List.append_nil] at hown
    rw [Outbounds.owed_append, Outbounds.owed_singleton]
    split
    · rename_i hsame
      obtain ⟨hkey, rfl⟩ := hsame
      have hchosen := hs.room _ _ _ hp hq hr v hv o.coin.asset
      rw [List.append_nil] at hchosen
      rw [← Option.some.inj hkey] at hown ⊢
      dsimp only at hown ⊢
      omega
    · simpa using hown

namespace Payout

/-- Scheduling uses up no more room than the coin takes, and none where the vault is chosen. -/
theorem schedule_room (cs : List Coin) (hsent : o.sent = none)
    (hread : o.coin.reread? = some o.coin) (least : Amount) :
    (schedule o least).Completes (HasRoom [] (o.claim ++ cs)) (fun _ => HasRoom [] cs)
      (HasRoom [] cs) := by
  have hdrop : ∀ s, HasRoom [] (o.claim ++ cs) s → HasRoom [] cs s := fun _ hs => hs.drop _
  unfold schedule place
  simp only [Action.refuse_bind, withMemo_chain, withMemo_coin, withMemo_vault]
  refine .pastRead (charge_faultless _) hdrop fun fee => .ite (fun _ => .refuse hdrop) fun _ => ?_
  refine .ite (fun _ => .refuse hdrop) fun _ => .ite (fun _ => ?_) fun _ => ?_
  · refine .bind (S := fun _ => HasRoom [] cs) ?_ fun _ => .pure fun _ hs => hs
    refine .restrict (P := HasRoom [] cs) ?_ hdrop
    exact .of_confined (settle_faultless _ _) (settle_confined _ _) fun s t hchanges hs =>
      hs.of_changes hchanges (by decide)
  have hasset : o.coin.asset.reread? = some o.coin.asset := by
    obtain ⟨a, ha, hcoin⟩ := Option.map_eq_some_iff.1 hread
    obtain rfl : a = o.coin.asset := congrArg Coin.asset hcoin
    exact ha
  refine .ite (fun hnamed => ?_) fun _ => ?_
  · refine .bind (S := fun _ => HasRoom [] cs) ?_ fun _ => .pure fun _ hs => hs
    refine (enqueue_room ?_ ?_).restrict fun s hs => ?_
    · exact (withMemo_sent o).trans hsent
    · exact Outbound.reread?_of_asset hasset
    · rw [Outbound.claim, if_pos hnamed] at hs
      exact hs.spend rfl (Nat.sub_le _ _)
  · refine .restrict (P := HasRoom [] cs) ?_ hdrop
    refine .readThen (signer?_faultless _) (fun _ hs => hs) fun key => ?_
    cases key with
    | none => exact .pure fun _ hs => hs.1
    | some key =>
      refine .bind (S := fun _ => HasRoom [] cs) ?_ fun _ => .pure fun _ hs => hs
      refine (enqueue_room ?_ ?_).restrict fun s hs => hs.1.assign hs.2
      · exact (withMemo_sent o).trans hsent
      · exact Outbound.reread?_of_asset hasset

end Payout

end

end LiquidityNet
