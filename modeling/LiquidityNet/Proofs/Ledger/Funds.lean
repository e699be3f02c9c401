import LiquidityNet.Proofs.Ledger.Nodes

/-!
# Bonds and balances

A sum over a table, such as that of the bonds of all nodes, changes by as much as the one record
that is stored anew. A transfer takes from one account what it gives to another, and a payout takes
it from the account of the module that pays.
-/

namespace LiquidityNet

theorem SortedMap.total_insertEntry {α : Type} (f : α → Amount) {k : String} {v : α}
    {es : List (String × α)} (hes : es.Pairwise fun a b => a.1 < b.1) :
    Amount.total ((insertEntry k v es).map fun e => f e.2) +
        (lookup k es).elim 0 (fun u => (f u).val) =
      Amount.total (es.map fun e => f e.2) + (f v).val := by
  induction es with
  | nil => exact Nat.add_comm _ _
  | cons e es ih =>
    obtain ⟨he, hes⟩ := List.pairwise_cons.1 hes
    unfold insertEntry
    split
    · rename_i hk
      have hnone : lookup k (e :: es) = none := by
        refine lookup_eq_none fun x hx => ?_
        rcases List.mem_cons.1 hx with rfl | hx
        · exact hk
        · exact String.lt_trans hk (he x hx)
      rw [hnone]
      simp only [List.map_cons, Amount.total_cons, Option.elim_none]
      omega
    · split
      · rename_i hk
        have hne : k ≠ e.1 := fun h => String.lt_irrefl k (h ▸ hk)
        have hrest := ih hes
        rw [lookup, if_neg hne]
        simp only [List.map_cons, Amount.total_cons]
        omega
      · rename_i hlt hgt
        have heq : k = e.1 := String.le_antisymm (String.not_lt.1 hgt) (String.not_lt.1 hlt)
        rw [lookup, if_pos heq]
        simp only [List.map_cons, Amount.total_cons, Option.elim_some]
        omega

def Record.bond : Record → Amount
  | .node n => n.bond
  | _ => 0

namespace Ledger

variable {s t : Ledger} {n : Node} {Ts : List Table}

/-! ## Sums over a table -/

/-- What all records of a table amount to, which no bound holds back. -/
def sumOver (T : Table) (f : Record → Amount) (s : Ledger) : Nat :=
  Amount.total ((s.store.under T.start).map fun e => f e.2)

theorem sumOver_of_changes {T : Table} {f : Record → Amount} (h : Changes Ts s t) (hT : T ∉ Ts) :
    t.sumOver T f = s.sumOver T f := by
  unfold sumOver
  rw [LayeredStore.under_congr fun k hk => h.get?_eq (Table.ofKey?_of_beginsWith hk) hT]

theorem sumOver_congr {T : Table} {f : Record → Amount} (h : ∀ k, t.get? k = s.get? k) :
    t.sumOver T f = s.sumOver T f := by
  unfold sumOver
  rw [LayeredStore.under_congr fun k _ => h k]

theorem sumOver_putRecord {T : Table} {f : Record → Amount} {k : String}
    (hk : Text.beginsWith T.start k = true) (s : Ledger) (r : Record) :
    (s.putRecord k r).sumOver T f + (s.get? k).elim 0 (fun u => (f u).val) =
      s.sumOver T f + (f r).val := by
  have hsum := SortedMap.total_insertEntry f (k := k) (v := r) (s.store.under_sorted T.start)
  have hput : (s.putRecord k r).store.under T.start =
      SortedMap.insertEntry k r (s.store.under T.start) := LayeredStore.under_set hk r
  rw [LayeredStore.lookup_under hk] at hsum
  rw [sumOver, sumOver, hput]
  exact hsum

/-! ## The bonds of all nodes -/

/-- The bonds of all stored nodes together, which no bound holds back. -/
def bonded (s : Ledger) : Nat :=
  Amount.total ((s.store.under Key.nodeStart).map fun e => e.2.bond)

theorem total_of_mapM {es : List (String × Record)} {ns : List Node}
    (h : es.mapM (fun e => ofRecord? e.2) = some ns) :
    Amount.total (es.map fun e => e.2.bond) = Amount.total (ns.map (·.bond)) := by
  induction es generalizing ns with
  | nil =>
    cases h
    rfl
  | cons e es ih =>
    rw [List.mapM_cons] at h
    obtain ⟨n, hn, h⟩ := Option.bind_eq_some_iff.1 h
    obtain ⟨rest, hrest, h⟩ := Option.bind_eq_some_iff.1 h
    cases h
    obtain ⟨k, r⟩ := e
    cases r <;> cases hn
    simp only [List.map_cons, Amount.total_cons, ih hrest]
    rfl

theorem bonded_eq {ns : List Node} (h : Nodes.all s = .ok ns) :
    s.bonded = Amount.total (ns.map (·.bond)) := by
  unfold Nodes.all fetchAll at h
  split at h
  · rename_i hns
    cases h
    exact total_of_mapM hns
  · cases h

theorem bonded_of_changes (h : Changes Ts s t) (hTs : .nodes ∉ Ts) : t.bonded = s.bonded :=
  sumOver_of_changes (T := .nodes) (f := Record.bond) h hTs

theorem bondAt_of_changes (h : Changes Ts s t) (hTs : .nodes ∉ Ts) (a : Address) :
    t.bondAt a = s.bondAt a := by
  rw [bondAt, bondAt, h.get?_eq (Table.ofKey?_node a) hTs]

theorem bonded_congr (h : ∀ k, t.get? k = s.get? k) : t.bonded = s.bonded :=
  sumOver_congr (T := .nodes) (f := Record.bond) h

theorem bonded_putRecord_node (s : Ledger) (n : Node) :
    (s.putRecord (Key.node n.address) (.node n)).bonded + (s.bondAt n.address).val =
      s.bonded + n.bond.val := by
  have hsum := sumOver_putRecord (T := .nodes) (f := Record.bond)
    (Key.beginsWith_node n.address) s (.node n)
  have hold : (s.get? (Key.node n.address)).elim 0 (fun u => u.bond.val) =
      (s.bondAt n.address).val := by
    unfold bondAt
    cases s.get? (Key.node n.address) with
    | none => rfl
    | some r => cases r <;> rfl
  rw [← hold]
  exact hsum

/-! ## Balances -/

/-- The RUNE in an account. -/
def held (s : Ledger) (owner : Address) : Nat :=
  match s.get? (Key.balance owner .rune) with
  | some (.amount a) => a.val
  | _ => 0

theorem held_lt (s : Ledger) (owner : Address) : s.held owner < 0x10000000000000000 := by
  unfold held
  split
  · rename_i a _
    exact a.isLt
  · decide

theorem held_congr (h : ∀ k, t.get? k = s.get? k) (owner : Address) : t.held owner = s.held owner := by
  rw [held, held, h]

theorem held_of_changes (h : Changes Ts s t) (hTs : .balances ∉ Ts) (owner : Address) :
    t.held owner = s.held owner := by
  rw [held, held, h.get?_eq (Table.ofKey?_balance owner .rune) hTs]

end Ledger

theorem Key.balance_inj {a b : Address} {c : Asset} (h : balance a c = balance b c) : a = b := by
  have hlist := congrArg String.toList h
  unfold balance at hlist
  simp only [String.toList_append, List.append_assoc] at hlist
  have htext := List.append_cancel_right (List.append_cancel_left hlist)
  cases a
  cases b
  exact congrArg Address.mk (String.toList_injective htext)

namespace Bank

variable {s t : Ledger} {owner source target : Address} {a x : Amount}

theorem held_of_balance (h : balance owner .rune s = .ok a) : s.held owner = a.val := by
  unfold Ledger.held
  rcases Ledger.fetchD_eq_ok.1 h with ⟨hnone, rfl⟩ | ⟨r, hr, ha⟩
  · rw [hnone]
    rfl
  · rw [hr]
    cases r <;> cases ha
    rfl

theorem setBalance_held (h : setBalance owner .rune a s = (.ok (), t)) (q : Address) :
    t.held q = if q = owner then a.val else s.held q := by
  have hget : ∀ k, t.get? k = if k = Key.balance owner .rune then
      (if a = 0 then none else some (.amount a)) else s.get? k := by
    intro k
    unfold setBalance record at h
    split at h
    · rename_i ha
      cases h
      rw [if_pos ha]
      exact Ledger.get?_assign s _ none k
    · rename_i ha
      cases h
      rw [if_neg ha]
      exact Ledger.get?_assign s _ (some (.amount a)) k
  unfold Ledger.held
  rw [hget]
  by_cases hq : q = owner
  · rw [if_pos hq, if_pos (hq ▸ rfl)]
    by_cases ha : a = 0
    · rw [if_pos ha, ha]
      rfl
    · rw [if_neg ha]
  · rw [if_neg hq, if_neg fun hkey => hq (Key.balance_inj hkey)]

/-- A transfer takes from one account and gives to another, up to the largest amount. Between an
account and itself it changes nothing. -/
theorem transferCoin_held (h : transferCoin source target ⟨.rune, x⟩ s = (.ok (), t)) :
    x.val ≤ s.held source ∧
      (source = target → t.held source = s.held source) ∧
      (source ≠ target → t.held source = s.held source - x.val ∧
        t.held target = min (s.held target + x.val) 0xffffffffffffffff) := by
  unfold transferCoin at h
  simp only [Action.refuse_bind] at h
  obtain ⟨before, hbefore, h⟩ := Action.read_bind_eq_ok.1 h
  split at h
  · cases h
  rename_i hcovered
  obtain ⟨_, u, hsource, h⟩ := Action.bind_eq_ok.1 h
  obtain ⟨there, hthere, htarget⟩ := Action.read_bind_eq_ok.1 h
  have hheld := held_of_balance hbefore
  have hle : x.val ≤ before.val := Nat.not_lt.1 hcovered
  have hfirst := setBalance_held hsource
  have hsecond := setBalance_held htarget
  have hmiddle := held_of_balance hthere
  refine ⟨hheld ▸ hle, ?_, ?_⟩
  · rintro rfl
    have hlimit := before.isLt
    rw [hfirst, if_pos rfl] at hmiddle
    rw [hsecond, if_pos rfl, hheld]
    simp only [Amount.val_minus, Amount.val_plus] at hmiddle ⊢
    omega
  · intro hne
    rw [hfirst, if_neg (Ne.symm hne)] at hmiddle
    constructor
    · rw [hsecond, if_neg hne, hfirst, if_pos rfl, Amount.val_minus, hheld]
    · rw [hsecond, if_pos rfl, Amount.val_plus, hmiddle]

theorem transfer_singleton_ok {c : Coin} (h : transfer source target [c] s = (.ok (), t)) :
    transferCoin source target c s = (.ok (), t) := by
  obtain ⟨_, u, hcoin, h⟩ := Action.bind_eq_ok.1 h
  cases h
  exact hcoin

theorem transfer_held_source (h : transfer source target [⟨.rune, x⟩] s = (.ok (), t)) :
    t.held source + (if target = source then 0 else x.val) = s.held source := by
  obtain ⟨hle, hsame, hother⟩ := transferCoin_held (transfer_singleton_ok h)
  split
  · rename_i heq
    rw [hsame heq.symm, Nat.add_zero]
  · rename_i hne
    rw [(hother (Ne.symm hne)).1]
    omega

end Bank

/-! ## Payouts -/

def bondAccount : Address := .ofModule Module.bond

namespace Payout

variable {s t : Ledger} {o : Outbound} {fee : Amount} {payer : String}

theorem takeFee_held (hminted : payer ≠ Module.thorchain)
    (hreserve : Address.ofModule Module.reserve ≠ .ofModule payer)
    (h : takeFee payer .rune fee s = (.ok (), t)) :
    t.held (.ofModule payer) + fee.val = s.held (.ofModule payer) := by
  unfold takeFee at h
  split at h
  · unfold collectFee at h
    have hother : payer ≠ Module.reserve := fun heq => hreserve (by rw [heq])
    rw [if_neg hminted, if_pos (by decide), if_pos hother] at h
    have hpaid := Bank.transfer_held_source h
    rwa [if_neg hreserve] at hpaid
  · rename_i hzero
    cases h
    rw [Decidable.not_not.1 hzero]
    rfl

/-- A payout in RUNE from the account of a module takes the coin and the fee. What is paid to that
account itself comes back. -/
theorem settle_held (h : settle o fee s = (.ok (), t)) (hpayer : o.payer.getD Module.asgard = payer)
    (hminted : payer ≠ Module.thorchain)
    (hreserve : Address.ofModule Module.reserve ≠ .ofModule payer) (hrune : o.coin.asset = .rune) :
    t.held (.ofModule payer) + fee.val +
        (if o.recipient = .ofModule payer then 0 else o.coin.amount.val) =
      s.held (.ofModule payer) := by
  have hcoin : o.coin = ⟨.rune, o.coin.amount⟩ := by rw [← hrune]
  rw [settle_eq, hpayer, hrune, hcoin] at h
  obtain ⟨_, u, hmint, h⟩ := Action.bind_eq_ok.1 h
  obtain ⟨_, v, hmoved, h⟩ := Action.bind_eq_ok.1 h
  obtain ⟨_, w, hfee, h⟩ := Action.bind_eq_ok.1 h
  cases h
  rw [mintFor, if_neg hminted] at hmint
  cases hmint
  have htaken : w.held (.ofModule payer) + fee.val = v.held (.ofModule payer) :=
    takeFee_held hminted hreserve hfee
  have hpaid := Bank.transfer_held_source hmoved
  rw [← htaken] at hpaid
  exact hpaid

theorem schedule_ok {least : Amount} {b : Bool} (h : schedule o least s = (.ok b, t)) :
    ∃ fee, charge (withMemo o) s = .ok fee ∧ (fee = 0 ∨ fee < o.coin.amount) ∧
      least ≤ o.coin.amount.minus fee ∧
      place { withMemo o with coin := { o.coin with amount := o.coin.amount.minus fee } } fee s =
        (.ok b, t) := by
  unfold schedule at h
  simp only [Action.refuse_bind, withMemo_coin] at h
  obtain ⟨fee, hfee, h⟩ := Action.read_bind_eq_ok.1 h
  split at h
  · cases h
  rename_i hcovered
  split at h
  · cases h
  rename_i hleast
  refine ⟨fee, hfee, ?_, Nat.not_lt.1 hleast, h⟩
  by_cases hzero : fee = 0
  · exact .inl hzero
  · exact .inr (Nat.not_le.1 fun hle => hcovered ⟨hzero, hle⟩)

theorem place_home_ok {b : Bool} (hhome : o.chain.isHome = true)
    (h : place o fee s = (.ok b, t)) : settle o fee s = (.ok (), t) ∧ b = true := by
  unfold place at h
  rw [if_pos hhome] at h
  obtain ⟨_, u, hsettled, hend⟩ := Action.bind_eq_ok.1 h
  cases hend
  exact ⟨hsettled, rfl⟩

theorem schedule_home_ok {least : Amount} {b : Bool} (h : schedule o least s = (.ok b, t))
    (hhome : o.chain.isHome = true) :
    ∃ fee, charge (withMemo o) s = .ok fee ∧ (fee ≠ 0 → fee < o.coin.amount) ∧
      settle { withMemo o with coin := { o.coin with amount := o.coin.amount.minus fee } } fee s =
        (.ok (), t) := by
  obtain ⟨fee, hfee, hless, -, hplaced⟩ := schedule_ok h
  exact ⟨fee, hfee, hless.resolve_left, (place_home_ok (withMemo_chain o ▸ hhome) hplaced).1⟩

end Payout

end LiquidityNet
