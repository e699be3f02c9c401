import LiquidityNet.Bond.Withdrawal
import LiquidityNet.Proofs.Ledger.Nodes

/-!
# What admission tells

What is known of the node and the providers of a deposit or a withdrawal that was admitted.
-/

namespace LiquidityNet.Bond

variable {s : Ledger} {n : Node} {ps : Providers}

theorem backfilled_eq_ok {stored : Providers} (h : backfilled n stored s = .ok ps) :
    ps.node = stored.node ∧
      ps.list = if stored.list = [] then [⟨n.operator, n.bond⟩] else stored.list := by
  unfold backfilled at h
  split at h
  · rename_i hlist
    cases h
    exact ⟨rfl, (if_neg hlist).symm⟩
  · rename_i hlist
    obtain ⟨fee, -, h⟩ := Query.bind_eq_ok.1 h
    cases h
    exact ⟨rfl, (if_pos (Decidable.not_not.1 hlist)).symm⟩

theorem providersOf_eq_ok (h : providersOf n s = .ok ps) :
    ∃ stored, Nodes.providersOf n.address s = .ok stored ∧ ps.node = stored.node ∧
      ps.list = if stored.list = [] then [⟨n.operator, n.bond⟩] else stored.list := by
  obtain ⟨stored, hstored, h⟩ := Query.bind_eq_ok.1 h
  exact ⟨stored, hstored, backfilled_eq_ok h⟩

/-- Whoever deposits is the operator or one of the providers. -/
theorem admitDeposit_eq_ok {m : BondRequest} (h : admitDeposit m n s = .ok ()) :
    ∃ ps, providersOf n s = .ok ps ∧
      (m.bondAddress = n.operator ∨ ps.has m.bondAddress = true) := by
  unfold admitDeposit at h
  simp only [Query.refuse_bind] at h
  obtain ⟨-, h⟩ := Query.unless_eq_ok.1 h
  obtain ⟨ps, hps, h⟩ := Query.bind_eq_ok.1 h
  refine ⟨ps, hps, ?_⟩
  have hprovider : ∀ {rest : Query Unit},
      (if (!m.bondAddress == n.operator && !ps.has m.bondAddress) = true then
        refuse .notAProvider else rest) s = .ok () →
      m.bondAddress = n.operator ∨ ps.has m.bondAddress = true := by
    intro rest hrest
    have hnot := (Query.unless_eq_ok.1 hrest).1
    grind
  split at h
  · obtain ⟨-, h⟩ := Query.unless_eq_ok.1 h
    obtain ⟨-, h⟩ := Query.unless_eq_ok.1 h
    exact hprovider (Query.unless_eq_ok.1 h).2
  · exact hprovider (Query.unless_eq_ok.1 h).2

theorem validateDeposit_eq_ok {m : BondRequest} (h : validateDeposit m s = .ok ())
    (hn : Nodes.find? m.node s = .ok (some n)) : admitDeposit m n s = .ok () := by
  unfold validateDeposit at h
  simp only [Query.refuse_bind] at h
  obtain ⟨_, -, h⟩ := Query.bind_eq_ok.1 h
  obtain ⟨-, h⟩ := Query.unless_eq_ok.1 h
  obtain ⟨found, hfound, h⟩ := Query.bind_eq_ok.1 h
  rw [hn] at hfound
  cases hfound
  exact h

theorem nodeFor_eq_ok {m : BondRequest} (h : nodeFor m s = .ok n) :
    s.get? (Key.node m.node) = some (.node n) ∨
      s.get? (Key.node m.node) = none ∧ n.address = m.node ∧ n.operator = m.bondAddress ∧
        n.bond = 0 := by
  obtain ⟨found, hfound, h⟩ := Query.bind_eq_ok.1 h
  have hget := Nodes.find?_eq_ok.1 hfound
  cases found with
  | none =>
    cases h
    exact .inr ⟨hget, rfl, rfl, rfl⟩
  | some k =>
    cases h
    exact .inl hget

/-- The node of a request may pay back bond, as far as the records of the node tell. -/
structure Withdrawable (m : UnbondRequest) (s : Ledger) (n : Node) : Prop where
  found : Nodes.find? m.node s = .ok (some n)
  idle : n.isActive = false
  recognised : ∃ ps, Nodes.providersOf m.node s = .ok ps ∧
    (m.bondAddress = n.operator ∨ ps.has m.bondAddress = true)
  free : ∃ j, Nodes.jailOf m.node s = .ok j ∧ j.holdsAt s.height = false
  apart : ∀ key, n.vaultKey = some key → ∃ vs, Vaults.asgards .retiring s = .ok vs ∧
    ∀ v ∈ vs, v.hasMember key = false

theorem withdrawable_of_admitted {m : UnbondRequest} (h : admitWithdrawal m s = .ok n) :
    Withdrawable m s n := by
  unfold admitWithdrawal at h
  simp only [Query.refuse_bind] at h
  obtain ⟨_, -, h⟩ := Query.bind_eq_ok.1 h
  obtain ⟨found, hfound, h⟩ := Query.bind_eq_ok.1 h
  cases found with
  | none => cases h
  | some k =>
    obtain ⟨hidle, h⟩ := Query.unless_eq_ok.1 h
    obtain ⟨ps, hps, h⟩ := Query.bind_eq_ok.1 h
    obtain ⟨hknown, h⟩ := Query.unless_eq_ok.1 h
    obtain ⟨j, hj, h⟩ := Query.bind_eq_ok.1 h
    obtain ⟨height, hheight, h⟩ := Query.bind_eq_ok.1 h
    cases hheight
    obtain ⟨hfree, h⟩ := Query.unless_eq_ok.1 h
    have hlast : k = n ∧ ∀ key, k.vaultKey = some key →
        ∃ vs, Vaults.asgards .retiring s = .ok vs ∧ ∀ v ∈ vs, v.hasMember key = false := by
      cases hkey : k.vaultKey with
      | none =>
        rw [hkey] at h
        cases h
        exact ⟨rfl, nofun⟩
      | some key =>
        rw [hkey] at h
        obtain ⟨vs, hvs, h⟩ := Query.bind_eq_ok.1 h
        obtain ⟨hnone, h⟩ := Query.unless_eq_ok.1 h
        cases h
        refine ⟨rfl, fun _ hsame => ?_⟩
        cases hsame
        refine ⟨vs, hvs, fun v hv => ?_⟩
        rw [Bool.not_eq_true, List.any_eq_false] at hnone
        exact Bool.eq_false_iff.2 (hnone v hv)
    obtain ⟨rfl, hapart⟩ := hlast
    have hrecognised : m.bondAddress = k.operator ∨ ps.has m.bondAddress = true := by
      grind
    exact ⟨hfound, Bool.eq_false_iff.2 hidle, ⟨ps, hps, hrecognised⟩,
      ⟨j, hj, Bool.eq_false_iff.2 hfree⟩, hapart⟩

theorem admitWithdrawal_eq_ok {m : UnbondRequest} (h : admitWithdrawal m s = .ok n) :
    Nodes.find? m.node s = .ok (some n) ∧ n.isActive = false :=
  ⟨(withdrawable_of_admitted h).found, (withdrawable_of_admitted h).idle⟩

/-- Once a withdrawal is validated, no funds are left to return, and nothing was asked for. -/
theorem validateWithdrawal_ok {m : UnbondRequest} {t : Ledger}
    (h : validateWithdrawal m s = (.ok n, t)) :
    ∃ ygg, admitWithdrawal m s = .ok n ∧ Vaults.yggdrasilOf n s = .ok ygg ∧
      ygg.any Vault.hasFunds = false ∧ t = s := by
  obtain ⟨k, hadmitted, h⟩ := Action.read_bind_eq_ok.1 h
  obtain ⟨ygg, hygg, h⟩ := Action.read_bind_eq_ok.1 h
  split at h
  · obtain ⟨_, u, -, h⟩ := Action.bind_eq_ok.1 h
    cases h
  · rename_i hnone
    cases h
    exact ⟨ygg, hadmitted, hygg, Bool.eq_false_iff.2 hnone, rfl⟩

theorem validateWithdrawal_eq_ok {m : UnbondRequest} {t : Ledger}
    (h : validateWithdrawal m s = (.ok n, t)) : admitWithdrawal m s = .ok n ∧ t = s := by
  obtain ⟨_, hadmitted, -, -, hsame⟩ := validateWithdrawal_ok h
  exact ⟨hadmitted, hsame⟩

end LiquidityNet.Bond
