import LiquidityNet.Proofs.Bond.Admission
import LiquidityNet.Proofs.Dispatch.Atomicity
import LiquidityNet.Proofs.Ledger.Completion

/-!
# What a refused withdrawal has asked for

A withdrawal is refused for funds to return only after the node was asked for them. It is asked on
the chains that the active and retiring asgard vaults list, as far as its yggdrasil vault holds funds
there: by one outbound for each of them, from that vault to an active one. Funds on a chain that no
such vault lists are not asked for, and they keep the withdrawal refused all the same.
-/

namespace LiquidityNet

open Ledger LiquidityNet.Action

variable {α β : Type} {e : Error}

/-! ## Refusals that do not occur -/

/-- A reading that is never refused for this reason. -/
def Query.Avoids (e : Error) (q : Query α) : Prop := ∀ s, q s ≠ .error (.refused e)

/-- An action that is never refused for this reason. -/
def Action.Avoids (e : Error) (body : Action α) : Prop := ∀ s t, body s ≠ (.error (.refused e), t)

namespace Query.Avoids

theorem pure (a : α) : Avoids e (Pure.pure a : Query α) := fun _ => nofun

theorem refuse {x : Error} (h : x ≠ e) : Avoids e (LiquidityNet.refuse x : Query α) := by
  intro s hs
  rw [Query.refuse_run] at hs
  cases hs
  exact h rfl

theorem bind {q : Query α} {f : α → Query β} (hq : q.Avoids e) (hf : ∀ a, (f a).Avoids e) :
    (q >>= f).Avoids e := by
  intro s h
  rcases Query.bind_eq_error.1 h with hrefused | ⟨a, -, hrefused⟩
  · exact hq s hrefused
  · exact hf a s hrefused

theorem ite {c : Prop} [Decidable c] {x y : Query α} (hx : x.Avoids e) (hy : y.Avoids e) :
    (if c then x else y).Avoids e := by
  split
  · exact hx
  · exact hy

theorem compute (x : Except Fault α) : Avoids e (liftM x : Query α) := by
  intro s h
  rw [Query.compute_run] at h
  cases x <;> cases h

theorem check {x : Except Error α} (hx : x ≠ .error e) : Avoids e (liftM x : Query α) := by
  intro s h
  rw [Query.check_run] at h
  cases x <;> cases h
  exact hx rfl

theorem mapM {f : α → Query β} (hf : ∀ a, (f a).Avoids e) (as : List α) :
    (as.mapM f).Avoids e := by
  induction as with
  | nil => exact pure []
  | cons a as ih =>
    rw [List.mapM_cons]
    exact (hf a).bind fun _ => ih.bind fun _ => pure _

/-! Reading records -/

theorem currentHeight : Ledger.currentHeight.Avoids e := fun _ => nofun

theorem fetch? [Recordable α] (he : e ≠ .unreadableRecord) (key : String) :
    Avoids e (Ledger.fetch? key : Query (Option α)) := by
  intro s h
  unfold Ledger.fetch? at h
  split at h
  · cases h
  · split at h <;> cases h
    exact he rfl

theorem fetchD [Recordable α] (he : e ≠ .unreadableRecord) (key : String) (d : α) :
    (Ledger.fetchD key d).Avoids e :=
  (fetch? he key).bind fun _ => pure _

theorem fetchAll [Recordable α] (he : e ≠ .unreadableRecord) (start : String) :
    Avoids e (Ledger.fetchAll start : Query (List α)) := by
  intro s h
  unfold Ledger.fetchAll at h
  split at h <;> cases h
  exact he rfl

end Query.Avoids

namespace Action.Avoids

theorem pure (a : α) : Avoids e (Pure.pure a : Action α) := fun _ _ => nofun

theorem refuse {x : Error} (h : x ≠ e) : Avoids e (LiquidityNet.refuse x : Action α) := by
  intro s t hs
  rw [refuse_run] at hs
  cases hs
  exact h rfl

theorem read {q : Query α} (hq : q.Avoids e) : Avoids e (liftM q : Action α) := by
  intro s t h
  rw [read_run] at h
  exact hq s (congrArg Prod.fst h)

theorem check {x : Except Error α} (hx : x ≠ .error e) : Avoids e (liftM x : Action α) := by
  intro s t h
  rw [check_run] at h
  cases x <;> cases h
  exact hx rfl

theorem compute (x : Except Fault α) : Avoids e (liftM x : Action α) := by
  intro s t h
  rw [compute_run] at h
  cases x <;> cases h

theorem bind {x : Action α} {f : α → Action β} (hx : x.Avoids e) (hf : ∀ a, (f a).Avoids e) :
    (x >>= f).Avoids e := by
  intro s t h
  rcases bind_eq_error.1 h with hrefused | ⟨a, u, -, hrefused⟩
  · exact hx s t hrefused
  · exact hf a u t hrefused

theorem ite {c : Prop} [Decidable c] {x y : Action α} (hx : x.Avoids e) (hy : y.Avoids e) :
    (if c then x else y).Avoids e := by
  split
  · exact hx
  · exact hy

theorem attempt (body : Action α) : (LiquidityNet.attempt body).Avoids e := by
  intro s t h
  unfold LiquidityNet.attempt at h
  rcases hbody : body s with ⟨(e' | f) | a, u⟩ <;> rw [hbody] at h <;> cases h

theorem forM {f : α → Action Unit} {as : List α} (hf : ∀ a ∈ as, (f a).Avoids e) :
    (as.forM f).Avoids e := by
  induction as with
  | nil => exact pure ()
  | cons a as ih =>
    exact (hf a List.mem_cons_self).bind fun _ => ih fun b hb => hf b (List.mem_cons_of_mem a hb)

theorem put [Recordable α] (key : String) (a : α) : (Ledger.put key a).Avoids e := fun _ _ => nofun

theorem emit (x : Event) : (Ledger.emit x).Avoids e := fun _ _ => nofun

end Action.Avoids

/-! ## Only funds to return are refused for -/

section

variable (he : e ≠ .unreadableRecord)

include he

theorem Vaults.asgards_avoids (status : VaultStatus) : (Vaults.asgards status).Avoids e :=
  (Query.Avoids.fetchAll he _).bind fun _ => .pure _

theorem Vaults.yggdrasilOf_avoids (n : Node) : (Vaults.yggdrasilOf n).Avoids e := by
  unfold Vaults.yggdrasilOf
  split
  · exact .pure _
  · exact (Query.Avoids.fetch? he _).bind fun _ => .pure _

theorem Pools.valueInRune_avoids (c : Coin) : (Pools.valueInRune c).Avoids e := by
  refine .ite (.pure _) ((Query.Avoids.fetch? he _).bind fun pool => ?_)
  split <;> exact .pure _

theorem Outbounds.pendingWithin_avoids (period : Signed) :
    (Outbounds.pendingWithin period).Avoids e := by
  refine Query.Avoids.currentHeight.bind fun _ => (Query.Avoids.compute _).bind fun _ => ?_
  refine (Query.Avoids.mapM (fun _ => ?_) _).bind fun _ => .pure _
  exact (Query.Avoids.fetchD he _ _).bind fun _ => .pure _

theorem Vaults.security_avoids (period : Signed) (v : Vault) :
    (Vaults.security period v).Avoids e := by
  have hbond : (Vaults.memberBond v).Avoids e := by
    refine (Query.Avoids.mapM (fun _ => ?_) _).bind fun _ => .pure _
    refine ((Query.Avoids.fetchAll he _).bind fun _ => .pure _).bind fun n => ?_
    split <;> exact .pure _
  have hexposure : (Vaults.exposure period v).Avoids e := by
    refine (Query.Avoids.mapM (Pools.valueInRune_avoids he) _).bind fun _ => ?_
    refine (Outbounds.pendingWithin_avoids he period).bind fun _ => ?_
    exact (Query.Avoids.mapM (fun _ => Pools.valueInRune_avoids he _) _).bind fun _ => .pure _
  exact hbond.bind fun _ => hexposure.bind fun _ => .pure _

theorem Vaults.mostSecure?_avoids (vaults : List Vault) (period : Signed) :
    (Vaults.mostSecure? vaults period).Avoids e := by
  refine (Query.Avoids.mapM (fun v => ?_) _).bind fun _ => .pure _
  exact (Vaults.security_avoids he period v).bind fun _ => .pure _

end

theorem Governance.value_avoids (x : Setting) : (Governance.value x).Avoids e := by
  intro s h
  obtain ⟨v, hv⟩ := Governance.valueAtLeast_ok x 0 s
  cases hv.symm.trans h

theorem PublicKey.address_ne_fundsToReturn (k : PublicKey) (c : Chain) :
    k.address c ≠ .error .fundsToReturn := by
  unfold PublicKey.address PublicKey.octets
  split <;> nofun

theorem UnbondRequest.validate_ne_fundsToReturn (m : UnbondRequest) :
    m.validate ≠ .error .fundsToReturn := by
  unfold UnbondRequest.validate
  repeat' split
  all_goals nofun

/-- A record that cannot be read is another matter. -/
theorem Error.fundsToReturn_ne : Error.fundsToReturn ≠ .unreadableRecord := nofun

namespace Recall

open Error (fundsToReturn_ne)

theorem requestOn_avoids (ygg target : Vault) {c : Chain} (hc : c.isHome = false) :
    (requestOn ygg target c).Avoids .fundsToReturn := by
  refine (Action.Avoids.read .currentHeight).bind fun height => ?_
  refine (Action.Avoids.check (target.key.address_ne_fundsToReturn c)).bind fun recipient => ?_
  unfold Payout.scheduleAsIs
  rw [if_neg (by rw [show (Outbound.chain _) = c from rfl, hc]; decide)]
  have happend : ∀ h o, (Outbounds.append h o).Avoids .fundsToReturn := fun _ _ =>
    (Action.Avoids.read (.fetchD fundsToReturn_ne _ _)).bind fun _ => .put _ _
  refine (Action.Avoids.read .currentHeight).bind fun _ => ?_
  refine (Action.Avoids.read (.fetch? fundsToReturn_ne _)).bind fun v => ?_
  cases v with
  | none => exact happend _ _
  | some v => exact .ite ((Action.Avoids.put _ _).bind fun _ => happend _ _) (happend _ _)

theorem request_avoids (n : Node) : (request n).Avoids .fundsToReturn := by
  refine (Action.Avoids.read (Vaults.yggdrasilOf_avoids fundsToReturn_ne n)).bind fun ygg => ?_
  cases ygg with
  | none => exact .pure ()
  | some ygg =>
    refine .ite ?_ (.pure ())
    refine (Action.Avoids.read (Vaults.asgards_avoids fundsToReturn_ne _)).bind fun active => ?_
    refine (Action.Avoids.read (Vaults.asgards_avoids fundsToReturn_ne _)).bind fun retiring => ?_
    refine (Action.Avoids.read (Governance.value_avoids _)).bind fun period => ?_
    refine (Action.Avoids.read (Vaults.mostSecure?_avoids fundsToReturn_ne _ _)).bind fun v => ?_
    cases v with
    | none => exact .refuse nofun
    | some target =>
      refine .forM fun c hc => requestOn_avoids ygg target ?_
      have hfar := (List.mem_filter.1 hc).2
      simp only [Bool.and_eq_true, Bool.not_eq_true'] at hfar
      exact hfar.1

end Recall

namespace Bond

open Error (fundsToReturn_ne)

theorem admitWithdrawal_avoids (m : UnbondRequest) :
    (admitWithdrawal m).Avoids .fundsToReturn := by
  refine (Query.Avoids.check m.validate_ne_fundsToReturn).bind fun _ => ?_
  refine (Query.Avoids.fetch? fundsToReturn_ne _).bind fun n => ?_
  cases n with
  | none => exact .refuse nofun
  | some n =>
  refine .ite (.refuse nofun) ?_
  refine (Query.Avoids.fetchD fundsToReturn_ne _ _).bind fun ps => .ite (.refuse nofun) ?_
  refine (Query.Avoids.fetchD fundsToReturn_ne _ _).bind fun jail => ?_
  refine Query.Avoids.currentHeight.bind fun _ => .ite (.refuse nofun) ?_
  split
  · refine (Vaults.asgards_avoids fundsToReturn_ne _).bind fun _ => ?_
    exact .ite (.refuse nofun) (.pure _)
  · exact .pure _

theorem providersOf_avoids (n : Node) : (providersOf n).Avoids .fundsToReturn := by
  refine (Query.Avoids.fetchD fundsToReturn_ne _ _).bind fun ps => .ite (.pure _) ?_
  exact ((Governance.value_avoids _).bind fun _ => .pure _).bind fun _ => .pure _

theorem save_avoids (n : Node) : (Nodes.save n).Avoids .fundsToReturn := by
  have hvalid : n.validate ≠ .error .fundsToReturn := by
    unfold Node.validate
    repeat' split
    all_goals nofun
  exact (Action.Avoids.check hvalid).bind fun _ => .put _ _

theorem payProvider_avoids (tx : Transaction) (n : Node) (provider : Address) (amount : Amount) :
    (payProvider tx n provider amount).Avoids .fundsToReturn := by
  refine (Action.Avoids.attempt _).bind fun outcome => ?_
  rcases outcome with cause | _ | _
  · exact .bind (.refuse nofun) fun _ => .emit _
  · exact .bind (.refuse nofun) fun _ => .emit _
  · exact .bind (.pure ()) fun _ => .emit _

theorem payBack_avoids (tx : Transaction) (provider : Address) (amount : Amount) (n : Node) :
    (payBack tx provider amount n).Avoids .fundsToReturn := by
  have hentered : ∀ paid ps, (enterPayment provider paid ps n).Avoids .fundsToReturn := by
    intro paid ps
    refine (Action.Avoids.compute _).bind fun bond => ?_
    refine (Action.Avoids.read .currentHeight).bind fun height => ?_
    exact ((save_avoids _).bind fun _ => .put _ _).bind fun _ => .pure _
  refine .ite (.pure n) ?_
  refine (Action.Avoids.read (providersOf_avoids n)).bind fun stored => ?_
  refine (Action.Avoids.compute _).bind fun ps => ?_
  exact .ite ((payProvider_avoids _ _ _ _).bind fun _ => hentered _ _) (hentered _ _)

theorem enterWithdrawal_avoids (m : UnbondRequest) (n : Node) :
    (enterWithdrawal m n).Avoids .fundsToReturn := by
  refine (payBack_avoids _ _ _ _).bind fun _ => .ite ?_ (.pure ())
  refine (Action.Avoids.read (.fetchD fundsToReturn_ne _ _)).bind fun ps => .ite ?_ (.pure ())
  split
  · exact .put _ _
  · exact .pure ()

/-- A refusal for funds to return comes with a request, and from nowhere else. -/
theorem asked_of_withdraw {m : UnbondRequest} {s t : Ledger}
    (h : withdraw m s = (.error (.refused .fundsToReturn), t)) :
    ∃ n ygg, admitWithdrawal m s = .ok n ∧ Vaults.yggdrasilOf n s = .ok (some ygg) ∧
      ygg.hasFunds = true ∧ Recall.requestFrom ygg s = (.ok (), t) := by
  rcases bind_eq_error.1 h with hvalidate | ⟨n, u, -, hentered⟩
  · rcases read_bind_cases hvalidate with ⟨_, hadmit, he, -⟩ | ⟨n, hadmit, hvalidate⟩
    · cases he
      exact absurd hadmit (admitWithdrawal_avoids m s)
    rcases read_bind_cases hvalidate with ⟨_, hygg, he, -⟩ | ⟨ygg?, hygg, hvalidate⟩
    · cases he
      exact absurd hygg (Vaults.yggdrasilOf_avoids fundsToReturn_ne n s)
    split at hvalidate
    · rename_i hfunds
      obtain ⟨ygg, rfl, hholds⟩ := (Option.any_eq_true _ _).1 hfunds
      rcases bind_eq_error.1 hvalidate with hrequest | ⟨_, u, hrequest, hrefused⟩
      · exact absurd hrequest (Recall.request_avoids n s t)
      obtain ⟨_, hygg', hrequest⟩ := read_bind_eq_ok.1 hrequest
      obtain rfl := Except.ok.inj (hygg.symm.trans hygg')
      change (if ygg.hasFunds = true then Recall.requestFrom ygg else Pure.pure ()) s = _ at hrequest
      rw [if_pos hholds] at hrequest
      cases hrefused
      exact ⟨n, ygg, hadmit, hygg, hholds, hrequest⟩
    · cases hvalidate
  · rcases transactionally_cases (enterWithdrawal_confined m n) hentered with ⟨_, _, hok, -⟩ |
      ⟨e, v, he, hrefused, -⟩ | ⟨f, hf, -⟩
    · cases hok
    · cases he
      exact absurd hrefused (enterWithdrawal_avoids m n _ v)
    · cases hf

end Bond

/-! ## The requests, one by one -/

namespace Recall

variable {s t u : Ledger} {items : List Outbound} {ygg target : Vault} {c : Chain}

/-- An outbound that asks for what a vault holds on its chain to be sent to the address of another
vault there. -/
structure Asks (ygg target : Vault) (height : Height) (o : Outbound) : Prop
    extends o.AsksReturn where
  vault : o.vault = some ygg.key
  recipient : target.key.address o.chain = .ok o.recipient
  notice : o.memo = Memo.yggdrasilReturn height

/-- The second ledger is the first one with these requests in the batch of the current block. -/
def Adds (items : List Outbound) (s t : Ledger) : Prop :=
  items = [] ∧ t = s ∨ ∃ b, Outbounds.atHeight s.height s = .ok b ∧ (∀ o ∈ items, o.AsksReturn) ∧
    t = joined b items s

theorem Adds.height (h : Adds items s t) : t.height = s.height := by
  rcases h with ⟨-, rfl⟩ | ⟨b, -, -, rfl⟩
  · rfl
  · exact joined_height b items s

/-- The batch of the current block is that of before and the requests. -/
theorem Adds.atHeight (hs : s.Filed) (h : Adds items s t) :
    items = [] ∧ t = s ∨ ∃ b, Outbounds.atHeight s.height s = .ok b ∧
      Outbounds.atHeight t.height t = .ok { b with items := b.items ++ items } := by
  refine h.imp_right ?_
  rintro ⟨b, hb, hitems, rfl⟩
  exact ⟨b, hb, by rw [joined_height]; exact atHeight_joined hs hb hitems⟩

theorem Adds.enqueue {o : Outbound} (hs : s.Filed) (ht : t.Filed) (ho : o.AsksReturn)
    (hst : Adds items s t) (hrun : Payout.enqueue o t = (.ok (), u)) :
    Adds (items ++ [o]) s u := by
  have hasks : (∀ p ∈ items, p.AsksReturn) → ∀ p ∈ items ++ [o], p.AsksReturn := by
    intro hitems p hp
    rcases List.mem_append.1 hp with hp | hp
    · exact hitems p hp
    · rwa [List.mem_singleton.1 hp]
  rw [enqueue_run_of_asksReturn ht ho] at hrun
  rcases hfind : Attestations.find? .blank t with e | v <;> rw [hfind] at hrun
  · cases hrun
  rcases hst with ⟨rfl, rfl⟩ | ⟨b, hb, hitems, rfl⟩
  · simp only [Payout.append_run, atHeight_noted] at hrun
    rcases hb : Outbounds.atHeight t.height t with e | b <;> rw [hb] at hrun <;> cases hrun
    refine .inr ⟨b, hb, hasks fun _ hp => absurd hp List.not_mem_nil, ?_⟩
    rw [(Outbounds.atHeight_spec hs hb).1]
    rfl
  · simp only [noted_joined, joined_height, Payout.append_run, atHeight_joined hs hb hitems] at hrun
    cases hrun
    refine .inr ⟨b, hb, hasks hitems, ?_⟩
    unfold joined
    rw [(Outbounds.atHeight_spec hs hb).1, putRecord_putRecord, List.append_assoc]

theorem requestOn_ok (hs : s.Filed) (ht : t.Filed) (hc : c.isHome = false)
    (hst : Adds items s t) (h : requestOn ygg target c t = (.ok (), u)) :
    ∃ o, o.chain = c ∧ Asks ygg target s.height o ∧ Adds (items ++ [o]) s u ∧ u.Filed := by
  obtain ⟨height, hheight, h⟩ := read_bind_eq_ok.1 h
  obtain rfl := Except.ok.inj hheight
  obtain ⟨recipient, hrecipient, h⟩ := check_bind_eq_ok.1 h
  unfold Payout.scheduleAsIs at h
  rw [if_neg (by rw [show (Outbound.chain _) = c from rfl, hc]; decide)] at h
  have hasks : Outbound.AsksReturn { Outbound.make c recipient ⟨.rune, 0⟩ .blank with
      memo := Memo.yggdrasilReturn t.height
      vault := some ygg.key } := ⟨beginsWith_yggdrasilReturn _, rfl, rfl⟩
  refine ⟨_, rfl, ⟨hasks, rfl, hrecipient, ?_⟩, hst.enqueue hs ht hasks h,
    ((Payout.enqueue_confined _).changes h).filed ht⟩
  rw [hst.height]

/-- One request is made for each chain. -/
theorem requestAllOn_ok (hs : s.Filed) {cs : List Chain} (hcs : ∀ c ∈ cs, c.isHome = false)
    (ht : t.Filed) (hst : Adds items s t)
    (h : cs.forM (requestOn ygg target) t = (.ok (), u)) :
    ∃ asked, asked.map (·.chain) = cs ∧ (∀ o ∈ asked, Asks ygg target s.height o) ∧
      Adds (items ++ asked) s u := by
  induction cs generalizing items t with
  | nil =>
    cases h
    exact ⟨[], rfl, fun _ ho => absurd ho List.not_mem_nil, (List.append_nil items).symm ▸ hst⟩
  | cons c cs ih =>
    obtain ⟨_, v, hone, hrest⟩ := bind_eq_ok.1 h
    obtain ⟨o, hchain, ho, hv, hfiled⟩ := requestOn_ok hs ht (hcs c List.mem_cons_self) hst hone
    obtain ⟨asked, hchains, hasked, hu⟩ :=
      ih (fun d hd => hcs d (List.mem_cons_of_mem c hd)) hfiled hv hrest
    refine ⟨o :: asked, by rw [List.map_cons, hchain, hchains], ?_, ?_⟩
    · exact List.forall_mem_cons.2 ⟨ho, hasked⟩
    · rwa [List.append_assoc] at hu

end Recall

namespace Vaults

theorem mem_of_foldl_better {xs : List (Int × Vault)} {x : Int × Vault}
    {best : Option (Int × Vault)} (h : xs.foldl better best = some x) : x ∈ xs ∨ best = some x := by
  induction xs generalizing best with
  | nil => exact .inr h
  | cons y xs ih =>
    rcases ih h with hmem | hbest
    · exact .inl (List.mem_cons_of_mem y hmem)
    unfold better at hbest
    split at hbest
    · exact .inl (Option.some.inj hbest ▸ List.mem_cons_self)
    · split at hbest
      · exact .inl (Option.some.inj hbest ▸ List.mem_cons_self)
      · exact .inr hbest

theorem mem_of_mostSecure? {vaults : List Vault} {period : Signed} {s : Ledger} {v : Vault}
    (h : mostSecure? vaults period s = .ok (some v)) : v ∈ vaults := by
  obtain ⟨rated, hrated, h⟩ := Query.bind_eq_ok.1 h
  obtain ⟨⟨x, w⟩, hbest, rfl⟩ := Option.map_eq_some_iff.1 (Except.ok.inj h)
  obtain ⟨w', hw', hread⟩ :=
    Query.mem_of_mapM hrated ((mem_of_foldl_better hbest).resolve_right nofun)
  obtain ⟨_, -, hread⟩ := Query.bind_eq_ok.1 hread
  cases hread
  exact hw'

end Vaults

namespace Recall

variable {s t : Ledger} {ygg : Vault}

/-- The chains that some vaults list. -/
theorem mem_chainsOf {vaults : List Vault} {c : Chain} :
    c ∈ chainsOf vaults ↔ ∃ v ∈ vaults, c ∈ v.chains := by
  unfold chainsOf
  simp [Chain.mem_all]

theorem requestFrom_ok (hs : s.Filed) (h : requestFrom ygg s = (.ok (), t)) :
    ∃ active retiring target asked, Vaults.asgards .active s = .ok active ∧
      Vaults.asgards .retiring s = .ok retiring ∧ target ∈ active ∧
      asked.map (·.chain) =
        (chainsOf (active ++ retiring)).filter (fun c => !c.isHome && ygg.hasFundsOn c) ∧
      (∀ o ∈ asked, Asks ygg target s.height o) ∧ Adds asked s t := by
  obtain ⟨active, hactive, h⟩ := read_bind_eq_ok.1 h
  obtain ⟨retiring, hretiring, h⟩ := read_bind_eq_ok.1 h
  obtain ⟨period, -, h⟩ := read_bind_eq_ok.1 h
  obtain ⟨target, htarget, h⟩ := read_bind_eq_ok.1 h
  cases target with
  | none => cases h
  | some target =>
    have hfar : ∀ c ∈ (chainsOf (active ++ retiring)).filter
        (fun c => !c.isHome && ygg.hasFundsOn c), c.isHome = false := by
      intro c hc
      have hc := (List.mem_filter.1 hc).2
      simp only [Bool.and_eq_true, Bool.not_eq_true'] at hc
      exact hc.1
    have hstart : Adds [] s s := .inl ⟨rfl, rfl⟩
    obtain ⟨asked, hchains, hasked, hadds⟩ := requestAllOn_ok hs hfar hs hstart h
    exact ⟨active, retiring, target, asked, hactive, hretiring,
      Vaults.mem_of_mostSecure? htarget, hchains, hasked, hadds⟩

end Recall

/-! ## What is asked for -/

namespace Bond

/-- A withdrawal that is refused for funds to return has asked for them: on every chain on which the
node's yggdrasil vault holds funds and which an active or retiring asgard vault lists, and on no
other. Each request goes from that vault to an active asgard vault, and all of them stand in the
batch of the current block. -/
theorem returns_asked {m : UnbondRequest} {s t : Ledger} (hs : s.Filed)
    (h : withdraw m s = (.error (.refused .fundsToReturn), t)) :
    ∃ n ygg active retiring target asked,
      Nodes.find? m.node s = .ok (some n) ∧ Vaults.yggdrasilOf n s = .ok (some ygg) ∧
      ygg.hasFunds = true ∧ Vaults.asgards .active s = .ok active ∧
      Vaults.asgards .retiring s = .ok retiring ∧ target ∈ active ∧
      (asked = [] ∧ t = s ∨ ∃ b, Outbounds.atHeight s.height s = .ok b ∧
        Outbounds.atHeight t.height t = .ok { b with items := b.items ++ asked }) ∧
      (∀ o ∈ asked, Recall.Asks ygg target s.height o) ∧
      ∀ c, (∃ o ∈ asked, o.chain = c) ↔
        c.isHome = false ∧ ygg.hasFundsOn c = true ∧ ∃ v ∈ active ++ retiring, c ∈ v.chains := by
  obtain ⟨n, ygg, hadmitted, hygg, hfunds, hrequested⟩ := asked_of_withdraw h
  obtain ⟨active, retiring, target, asked, hactive, hretiring, htarget, hchains, hasked, hadds⟩ :=
    Recall.requestFrom_ok hs hrequested
  refine ⟨n, ygg, active, retiring, target, asked, (admitWithdrawal_eq_ok hadmitted).1, hygg,
    hfunds, hactive, hretiring, htarget, hadds.atHeight hs, hasked, fun c => ?_⟩
  rw [← List.mem_map, hchains, List.mem_filter, Recall.mem_chainsOf, Bool.and_eq_true,
    Bool.not_eq_true']
  exact and_comm.trans and_assoc

end Bond

/-! The asgard vault of the network lists no chain, so it serves all of them; the node that wants to
leave holds funds on one. -/

namespace Dispatch

def unlistedVault : Vault := { receivingVault with chains := [] }

def unlistedLedger : Ledger :=
  (((Ledger.empty (.ofEnvironment .mocknet) 1).putRecord (Key.node leaver.address)
    (.node leaver)).putRecord (Key.vault leaverVault.key) (.vault leaverVault)).putRecord
    (Key.vault unlistedVault.key) (.vault unlistedVault)

theorem unlistedLedger_filed : unlistedLedger.Filed := by
  have hnode := (filed_empty (.ofEnvironment .mocknet) 1).putRecord (k := Key.node leaver.address)
    (r := .node leaver) rfl
  have hvault := hnode.putRecord (k := Key.vault leaverVault.key) (r := .vault leaverVault) rfl
  exact hvault.putRecord (k := Key.vault unlistedVault.key) (r := .vault unlistedVault) rfl

/-- The node is refused, and nothing is asked for. -/
theorem leaver_not_asked :
    leaverVault.hasFundsOn .bnb = true ∧ Payout.serves unlistedVault .bnb = true ∧
      ∃ t, Bond.withdraw leaving unlistedLedger = (.error (.refused .fundsToReturn), t) ∧
        Outbounds.atHeight t.height t = .ok ⟨1, []⟩ := by
  have hrefused : asksReturn ((Bond.withdraw leaving unlistedLedger).1.map fun _ => []) = true := by
    decide +kernel
  have hreads : (Nodes.find? leaving.node unlistedLedger).toOption = some (some leaver) ∧
      (Vaults.yggdrasilOf leaver unlistedLedger).toOption = some (some leaverVault) ∧
      (Vaults.asgards .active unlistedLedger).toOption = some [unlistedVault] ∧
      (Vaults.asgards .retiring unlistedLedger).toOption = some [] ∧
      (Outbounds.atHeight 1 unlistedLedger).toOption = some ⟨1, []⟩ := by decide +kernel
  obtain ⟨hnode, hvault, hasgards, hleft, hbatch⟩ := hreads
  rcases hrun : Bond.withdraw leaving unlistedLedger with ⟨r, t⟩
  rw [hrun] at hrefused
  obtain rfl : r = .error (.refused .fundsToReturn) := by
    have hanswer := eq_of_asksReturn hrefused
    cases r with
    | error e => exact congrArg Except.error (Except.error.inj hanswer)
    | ok _ => cases hanswer
  obtain ⟨n, ygg, active, retiring, target, asked, hn, hygg, -, hactive, hretiring, -, hadds, hasked,
    hlisted⟩ := Bond.returns_asked unlistedLedger_filed hrun
  obtain rfl := Option.some.inj (Except.ok.inj ((eq_ok_of_toOption hnode).symm.trans hn))
  obtain rfl := Option.some.inj (Except.ok.inj ((eq_ok_of_toOption hvault).symm.trans hygg))
  obtain rfl := Except.ok.inj ((eq_ok_of_toOption hasgards).symm.trans hactive)
  obtain rfl := Except.ok.inj ((eq_ok_of_toOption hleft).symm.trans hretiring)
  have hnone : asked = [] := by
    refine List.eq_nil_iff_forall_not_mem.2 fun o ho => ?_
    obtain ⟨-, -, v, hv, hlists⟩ := (hlisted o.chain).1 ⟨o, ho, rfl⟩
    cases List.mem_singleton.1 hv
    cases hlists
  refine ⟨by decide +kernel, rfl, t, rfl, ?_⟩
  rcases hadds with ⟨-, rfl⟩ | ⟨b, hb, ht⟩
  · exact eq_ok_of_toOption hbatch
  · obtain rfl := Except.ok.inj ((eq_ok_of_toOption hbatch).symm.trans hb)
    rw [ht, hnone]
    rfl

end Dispatch

end LiquidityNet
