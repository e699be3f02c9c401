import LiquidityNet.Proofs.Action.Invariance

/-!
# Runs without a fault

A refusal is an answer, but a fault halts whatever it occurs in. Most operations meet no fault on
any ledger, and the text of an operation tells which ones. The others do sums that have to stay in
range; from a ledger on which they do, a run meets no fault and leads to a property of the ledgers
after it, as the next operation may need one.
-/

namespace LiquidityNet

variable {α β : Type} {P P' : Ledger → Prop} {Ts : List Table}

/-! ## Computations -/

theorem except_bind_ok {ε α β : Type} {x : Except ε α} {f : α → Except ε β}
    (hx : ∃ a, x = .ok a) (hf : ∀ a, x = .ok a → ∃ b, f a = .ok b) : ∃ b, x >>= f = .ok b := by
  obtain ⟨a, rfl⟩ := hx
  exact hf a rfl

theorem Amount.add_ok {a b : Amount} (h : a.val + b.val < 0x10000000000000000) :
    ∃ c, a.add b = .ok c :=
  ⟨⟨a.val + b.val, h⟩, add_eq_ok_iff.2 rfl⟩

theorem Amount.sub_ok {a b : Amount} (h : b.val ≤ a.val) : ∃ c, a.sub b = .ok c :=
  ⟨a.minus b, sub_eq_ok_iff.2 (Nat.add_sub_cancel' h)⟩

theorem Signed.add_ok {a b : Signed} (hlower : -0x8000000000000000 ≤ a.val + b.val)
    (hupper : a.val + b.val < 0x8000000000000000) : ∃ c, a.add b = .ok c :=
  ⟨⟨a.val + b.val, hlower, hupper⟩, add_eq_ok_iff.2 rfl⟩

theorem Signed.sub_ok {a b : Signed} (hlower : -0x8000000000000000 ≤ a.val - b.val)
    (hupper : a.val - b.val < 0x8000000000000000) : ∃ c, a.sub b = .ok c :=
  ⟨⟨a.val - b.val, hlower, hupper⟩, sub_eq_ok_iff.2 rfl⟩

/-- What counts from zero can be subtracted from each other. -/
theorem Signed.sub_ok_of_nonneg {a b : Signed} (ha : 0 ≤ a) (hb : 0 ≤ b) :
    ∃ c, a.sub b = .ok c := by
  have ha := le_def.1 ha
  have hb := le_def.1 hb
  have haupper := a.upper
  have hbupper := b.upper
  rw [val_zero] at ha hb
  exact sub_ok (by omega) (by omega)

/-! ## Ledgers that read alike -/

/-- What can be read of the second ledger is what can be read of the first one. -/
structure Ledger.Alike (s t : Ledger) : Prop where
  settings : t.settings = s.settings
  height : t.height = s.height
  records : ∀ k, t.get? k = s.get? k

theorem Ledger.alike_checkpointed (s : Ledger) : Alike s s.checkpointed :=
  ⟨rfl, rfl, get?_checkpointed s⟩

theorem Ledger.CommitsTo.alike {s t : Ledger} (h : s.CommitsTo t) : Alike s t where
  settings := by rw [h.2]
  height := by rw [h.2]
  records := h.get?

/-! ## Queries -/

/-- From `P`, a query meets no fault. -/
def Query.Faultless (P : Ledger → Prop) (q : Query α) : Prop :=
  ∀ s f, P s → q s ≠ .error (.fault f)

namespace Query.Faultless

theorem restrict {q : Query α} (h : q.Faultless P) (hP : ∀ s, P' s → P s) : q.Faultless P' :=
  fun s f hs => h s f (hP s hs)

theorem known {q : Query α} {p : Prop} (hp : ∀ s, P s → p) (h : p → q.Faultless P) :
    q.Faultless P :=
  fun s f hs => h (hp s hs) s f hs

theorem pure (a : α) : Faultless P (Pure.pure a : Query α) := fun _ _ _ => nofun

theorem refuse (e : Error) : Faultless P (LiquidityNet.refuse e : Query α) := by
  intro s f _ h
  rw [refuse_run] at h
  cases h

/-- What was read is known from then on. -/
theorem bind {q : Query α} {f : α → Query β} (hq : q.Faultless P)
    (hf : ∀ a, (f a).Faultless fun s => P s ∧ q s = .ok a) : (q >>= f).Faultless P := by
  intro s e hs h
  rcases bind_eq_error.1 h with hfault | ⟨a, ha, hfault⟩
  · exact hq s e hs hfault
  · exact hf a s e ⟨hs, ha⟩ hfault

theorem past {q : Query α} {f : α → Query β} (hq : q.Faultless P)
    (hf : ∀ a, (f a).Faultless P) : (q >>= f).Faultless P :=
  hq.bind fun a => (hf a).restrict fun _ hs => hs.1

/-- What is read has a property that follows from `P`. -/
theorem readFact {q : Query α} {f : α → Query β} {p : α → Prop} (hq : q.Faultless P)
    (hp : ∀ s a, P s → q s = .ok a → p a) (hf : ∀ a, p a → (f a).Faultless P) :
    (q >>= f).Faultless P :=
  hq.bind fun a => known (fun s hs => hp s a hs.1 hs.2) fun ha =>
    (hf a ha).restrict fun _ hs => hs.1

theorem compute {x : Except Fault α} (hx : ∀ s, P s → ∃ a, x = .ok a) :
    Faultless P (liftM x : Query α) := by
  intro s f hs h
  obtain ⟨a, rfl⟩ := hx s hs
  rw [compute_run] at h
  cases h

theorem ite {c : Prop} [Decidable c] {x y : Query α} (hx : c → x.Faultless P)
    (hy : ¬ c → y.Faultless P) : (if c then x else y).Faultless P := by
  split
  · exact hx ‹_›
  · exact hy ‹_›

theorem mapM {f : α → Query β} {as : List α} (hf : ∀ a ∈ as, (f a).Faultless P) :
    (as.mapM f).Faultless P := by
  induction as with
  | nil => exact pure []
  | cons a as ih =>
    rw [List.mapM_cons]
    refine (hf a List.mem_cons_self).past fun b => .past ?_ fun bs => pure _
    exact ih fun c hc => hf c (List.mem_cons_of_mem a hc)

theorem anyM {f : α → Query Bool} {as : List α} (hf : ∀ a, (f a).Faultless P) :
    (as.anyM f).Faultless P := by
  induction as with
  | nil => exact pure false
  | cons a as ih =>
    rw [List.anyM_cons]
    refine (hf a).past fun b => ?_
    cases b with
    | false => exact ih
    | true => exact pure true

/-! Reading records -/

theorem currentHeight : Ledger.currentHeight.Faultless P := fun _ _ _ => nofun

theorem fetch? [Recordable α] (key : String) :
    Faultless P (Ledger.fetch? key : Query (Option α)) := by
  intro s f _ h
  unfold Ledger.fetch? at h
  split at h
  · cases h
  · split at h <;> cases h

theorem fetchD [Recordable α] (key : String) (d : α) : (Ledger.fetchD key d).Faultless P :=
  (fetch? key).past fun _ => pure _

theorem fetchAll [Recordable α] (start : String) :
    Faultless P (Ledger.fetchAll start : Query (List α)) := by
  intro s f _ h
  unfold Ledger.fetchAll at h
  split at h <;> cases h

end Query.Faultless

/-! ## Actions that never meet a fault -/

/-- On no ledger does a run end in a fault. -/
def Action.Faultless (body : Action α) : Prop := ∀ s f t, body s ≠ (.error (.fault f), t)

namespace Action.Faultless

theorem pure (a : α) : Faultless (Pure.pure a : Action α) := fun _ _ _ => nofun

theorem refuse (e : Error) : Faultless (LiquidityNet.refuse e : Action α) := by
  intro s f t h
  rw [refuse_run] at h
  cases h

theorem read {q : Query α} (hq : q.Faultless fun _ => True) :
    Faultless (liftM q : Action α) := by
  intro s f t h
  rw [read_run] at h
  exact hq s f trivial (congrArg Prod.fst h)

theorem check (x : Except Error α) : Faultless (liftM x : Action α) := by
  intro s f t h
  rw [check_run] at h
  cases x <;> cases h

theorem bind {x : Action α} {f : α → Action β} (hx : x.Faultless) (hf : ∀ a, (f a).Faultless) :
    (x >>= f).Faultless := by
  intro s e t h
  rcases bind_eq_error.1 h with hfault | ⟨a, u, -, hfault⟩
  · exact hx s e t hfault
  · exact hf a u e t hfault

theorem readThen {q : Query α} {f : α → Action β} (hq : q.Faultless fun _ => True)
    (hf : ∀ a, (f a).Faultless) : ((liftM q : Action α) >>= f).Faultless :=
  (read hq).bind hf

theorem ite {c : Prop} [Decidable c] {x y : Action α} (hx : c → x.Faultless)
    (hy : ¬ c → y.Faultless) : (if c then x else y).Faultless := by
  split
  · exact hx ‹_›
  · exact hy ‹_›

theorem attempt {body : Action α} (h : body.Faultless) :
    (LiquidityNet.attempt body).Faultless := by
  intro s f t hrun
  unfold LiquidityNet.attempt at hrun
  rcases hbody : body s with ⟨(e | f) | a, u⟩ <;> rw [hbody] at hrun <;> cases hrun
  exact h s _ _ hbody

theorem forM {f : α → Action Unit} {as : List α} (hf : ∀ a, (f a).Faultless) :
    (as.forM f).Faultless := by
  induction as with
  | nil => exact pure ()
  | cons a as ih => exact (hf a).bind fun _ => ih

theorem mapM {f : α → Action β} {as : List α} (hf : ∀ a, (f a).Faultless) :
    (as.mapM f).Faultless := by
  induction as with
  | nil => exact pure []
  | cons a as ih =>
    rw [List.mapM_cons]
    exact (hf a).bind fun _ => ih.bind fun _ => pure _

theorem put [Recordable α] (key : String) (a : α) : (Ledger.put key a).Faultless := by
  intro s f t h
  cases h

theorem erase (key : String) : (Ledger.erase key).Faultless := by
  intro s f t h
  cases h

theorem emit (e : Event) : (Ledger.emit e).Faultless := by
  intro s f t h
  cases h

end Action.Faultless

/-! ## Actions that meet no fault from some ledgers -/

/-- From `P`, a run meets no fault. If it succeeds, it leads to `Q` of its value, and if it is
refused, to `R`. -/
def Action.Completes (P : Ledger → Prop) (body : Action α) (Q : α → Ledger → Prop)
    (R : Ledger → Prop) : Prop :=
  ∀ s r t, P s → body s = (r, t) →
    match r with
    | .ok a => Q a t
    | .error (.refused _) => R t
    | .error (.fault _) => False

/-- From `P`, a run meets no fault and leads back to `P`. -/
abbrev Action.Sustains (P : Ledger → Prop) (body : Action α) : Prop :=
  body.Completes P (fun _ => P) P

namespace Action.Completes

variable {Q Q' : α → Ledger → Prop} {R R' : Ledger → Prop}

theorem mono {body : Action α} (h : body.Completes P Q R) (hP : ∀ s, P' s → P s)
    (hQ : ∀ a s, Q a s → Q' a s) (hR : ∀ s, R s → R' s) : body.Completes P' Q' R' := by
  intro s r t hs hrun
  have ht := h s r t (hP s hs) hrun
  rcases r with (e | f) | a
  · exact hR t ht
  · exact ht
  · exact hQ a t ht

theorem restrict {body : Action α} (h : body.Completes P Q R) (hP : ∀ s, P' s → P s) :
    body.Completes P' Q R :=
  fun s r t hs => h s r t (hP s hs)

/-- Less may be asked of where a refusal leads. -/
theorem mono_refusal {body : Action α} (h : body.Completes P Q R) (hR : ∀ s, R s → R' s) :
    body.Completes P Q R' :=
  h.mono (fun _ hs => hs) (fun _ _ hs => hs) hR

theorem known {body : Action α} {p : Prop} (hp : ∀ s, P s → p) (h : p → body.Completes P Q R) :
    body.Completes P Q R :=
  fun s r t hs => h (hp s hs) s r t hs

/-- A fault that does not occur need not lead anywhere. -/
theorem leads {body : Action α} (h : body.Completes P Q R) : body.Leads P Q R := by
  intro s r t hs hrun
  have ht := h s r t hs hrun
  rcases r with (e | f) | a
  · exact ht
  · exact ht.elim
  · exact ht

theorem of_faultless {body : Action α} (hbody : body.Faultless) (h : body.Leads P Q R) :
    body.Completes P Q R := by
  intro s r t hs hrun
  have ht := h s r t hs hrun
  rcases r with (e | f) | a
  · exact ht
  · exact hbody s f t hrun
  · exact ht

/-- What is confined to tables that `P` does not depend on keeps `P`. -/
theorem of_confined {body : Action α} (hbody : body.Faultless) (h : body.Confined Ts)
    (hP : ∀ s t, Ledger.Changes Ts s t → P s → P t) : body.Sustains P :=
  of_faultless hbody (.of_confined h hP)

theorem pure {a : α} (h : ∀ s, P s → Q a s) : (Pure.pure a : Action α).Completes P Q R :=
  of_faultless (.pure a) (.pure h)

theorem refuse {e : Error} (h : ∀ s, P s → R s) :
    (LiquidityNet.refuse e : Action α).Completes P Q R :=
  of_faultless (.refuse e) (.refuse h)

theorem bind {x : Action β} {f : β → Action α} {S : β → Ledger → Prop} (hx : x.Completes P S R)
    (hf : ∀ b, (f b).Completes (S b) Q R) : (x >>= f).Completes P Q R := by
  intro s r t hs hrun
  rw [bind_run] at hrun
  rcases hb : x s with ⟨(e | e) | b, u⟩
  · rw [hb] at hrun
    cases hrun
    exact hx s _ _ hs hb
  · exact (hx s _ u hs hb).elim
  · rw [hb] at hrun
    exact hf b u r t (hx s _ u hs hb) hrun

/-- What is confined to tables that `P` does not depend on is passed. -/
theorem past {x : Action β} {f : β → Action α} (hx : x.Faultless) (hconfined : x.Confined Ts)
    (hP : ∀ s t, Ledger.Changes Ts s t → P s → P t) (hR : ∀ s, P s → R s)
    (hf : ∀ b, (f b).Completes P Q R) : (x >>= f).Completes P Q R :=
  bind ((of_confined hx hconfined hP).mono_refusal hR) hf

/-- What was read is known from then on. -/
theorem readThen {q : Query β} {f : β → Action α} (hq : q.Faultless P) (hR : ∀ s, P s → R s)
    (hf : ∀ b, (f b).Completes (fun s => P s ∧ q s = .ok b) Q R) :
    ((liftM q : Action β) >>= f).Completes P Q R := by
  refine bind (S := fun b s => P s ∧ q s = .ok b) ?_ hf
  intro s r t hs hrun
  rw [read_run] at hrun
  rcases hread : q s with (e | e) | b <;> rw [hread] at hrun <;> cases hrun
  · exact hR s hs
  · exact hq s e hs hread
  · exact ⟨hs, hread⟩

theorem read {q : Query α} (hq : q.Faultless P) : (liftM q : Action α).Sustains P := by
  intro s r t hs hrun
  rw [read_run] at hrun
  rcases hread : q s with (e | e) | a <;> rw [hread] at hrun <;> cases hrun
  · exact hs
  · exact hq s e hs hread
  · exact hs

theorem pastRead {q : Query β} {f : β → Action α} (hq : q.Faultless P) (hR : ∀ s, P s → R s)
    (hf : ∀ b, (f b).Completes P Q R) : ((liftM q : Action β) >>= f).Completes P Q R :=
  readThen hq hR fun b => (hf b).restrict fun _ hs => hs.1

/-- What is read has a property that follows from `P`. -/
theorem readFact {q : Query β} {f : β → Action α} {p : β → Prop} (hq : q.Faultless P)
    (hR : ∀ s, P s → R s) (hp : ∀ s b, P s → q s = .ok b → p b)
    (hf : ∀ b, p b → (f b).Completes P Q R) : ((liftM q : Action β) >>= f).Completes P Q R := by
  refine readThen hq hR fun b => known (p := p b) (fun s hs => hp s b hs.1 hs.2) fun hb => ?_
  exact (hf b hb).restrict fun _ hs => hs.1

/-- What is computed from what `P` tells is in range. -/
theorem computeThen {x : Except Fault β} {f : β → Action α} (hx : ∀ s, P s → ∃ b, x = .ok b)
    (hf : ∀ b, x = .ok b → (f b).Completes P Q R) :
    ((liftM x : Action β) >>= f).Completes P Q R := by
  intro s r t hs hrun
  obtain ⟨b, hb⟩ := hx s hs
  rw [bind_run, compute_run, hb] at hrun
  exact hf b hb s r t hs hrun

theorem compute {x : Except Fault α} (hx : ∀ s, P s → ∃ a, x = .ok a) :
    (liftM x : Action α).Sustains P := by
  intro s r t hs hrun
  obtain ⟨a, ha⟩ := hx s hs
  rw [compute_run, ha] at hrun
  cases hrun
  exact hs

theorem ite {c : Prop} [Decidable c] {x y : Action α} (hx : c → x.Completes P Q R)
    (hy : ¬ c → y.Completes P Q R) : (if c then x else y).Completes P Q R := by
  split
  · exact hx ‹_›
  · exact hy ‹_›

theorem attempt {body : Action α} (h : body.Completes P Q R) :
    (LiquidityNet.attempt body).Completes P
      (fun r s => match r with | .ok a => Q a s | .error _ => R s) R' := by
  intro s r t hs hrun
  unfold LiquidityNet.attempt at hrun
  rcases hbody : body s with ⟨(e | f) | a, u⟩ <;> rw [hbody] at hrun <;> cases hrun <;>
    exact h s _ _ hs hbody

/-- A checkpoint makes no difference to what can be read. -/
theorem transactionally {body : Action α} (hconfined : body.Confined Ts)
    (h : body.Completes P Q R) (hP : ∀ s t, Ledger.Alike s t → P s → P t) (hR : ∀ s, P s → R s)
    (hQ : ∀ a (s t : Ledger), Ledger.Alike s t → Q a s → Q a t) :
    (LiquidityNet.transactionally body).Completes P Q R := by
  intro s r t hs hrun
  have hopen : P s.checkpointed := hP s _ s.alike_checkpointed hs
  rcases transactionally_cases hconfined hrun with ⟨a, u, rfl, hbody, hcommit⟩ |
    ⟨e, u, rfl, -, rfl⟩ | ⟨f, rfl, hbody⟩
  · exact hQ a u t hcommit.alike (h _ _ _ hopen hbody)
  · exact hR t hs
  · exact (h _ _ _ hopen hbody).elim

/-! Loops -/

theorem forM {f : β → Action Unit} {bs : List β}
    (hf : ∀ b ∈ bs, (f b).Completes P (fun _ => P) R) : (bs.forM f).Completes P (fun _ => P) R := by
  induction bs with
  | nil => exact pure fun _ hs => hs
  | cons b bs ih =>
    exact (hf b List.mem_cons_self).bind fun _ => ih fun c hc => hf c (List.mem_cons_of_mem b hc)

theorem mapM {f : β → Action α} {bs : List β} (hf : ∀ b ∈ bs, (f b).Completes P (fun _ => P) R) :
    (bs.mapM f).Completes P (fun _ => P) R := by
  induction bs with
  | nil => exact pure fun _ hs => hs
  | cons b bs ih =>
    rw [List.mapM_cons]
    refine (hf b List.mem_cons_self).bind fun _ => bind (S := fun _ => P) ?_ fun _ => ?_
    · exact ih fun c hc => hf c (List.mem_cons_of_mem b hc)
    · exact pure fun _ hs => hs

theorem filterM {f : β → Action Bool} {bs : List β} (hf : ∀ b ∈ bs, (f b).Sustains P) :
    (bs.filterM f).Sustains P := by
  have haux : ∀ cs : List β, (bs.filterAuxM f cs).Sustains P := by
    induction bs with
    | nil => exact fun cs => pure fun _ hs => hs
    | cons b bs ih =>
      refine fun cs => (hf b List.mem_cons_self).bind fun _ => ih ?_ _
      exact fun c hc => hf c (List.mem_cons_of_mem b hc)
  exact (haux []).bind fun _ => pure fun _ hs => hs

/-! The property of these loops speaks of what is still to be done. -/

theorem forM_rest {I : List β → Ledger → Prop} {f : β → Action Unit} {bs : List β}
    (hf : ∀ b ∈ bs, ∀ rest, (f b).Completes (I (b :: rest)) (fun _ => I rest) R) :
    (bs.forM f).Completes (I bs) (fun _ => I []) R := by
  induction bs with
  | nil => exact pure fun _ hs => hs
  | cons b bs ih =>
    refine (hf b List.mem_cons_self bs).bind fun _ => ih fun c hc => ?_
    exact hf c (List.mem_cons_of_mem b hc)

theorem mapM_rest {I : List β → Ledger → Prop} {f : β → Action α} {bs : List β}
    (hf : ∀ b ∈ bs, ∀ rest, (f b).Completes (I (b :: rest)) (fun _ => I rest) R) :
    (bs.mapM f).Completes (I bs) (fun _ => I []) R := by
  induction bs with
  | nil => exact pure fun _ hs => hs
  | cons b bs ih =>
    rw [List.mapM_cons]
    refine (hf b List.mem_cons_self bs).bind fun _ => bind (S := fun _ => I []) ?_ fun _ => ?_
    · exact ih fun c hc => hf c (List.mem_cons_of_mem b hc)
    · exact pure fun _ hs => hs

theorem foldlM_rest {I : List β → Ledger → Prop} {f : α → β → Action α} {bs : List β}
    (hf : ∀ a, ∀ b ∈ bs, ∀ rest, (f a b).Completes (I (b :: rest)) (fun _ => I rest) R) (a : α) :
    (bs.foldlM f a).Completes (I bs) (fun _ => I []) R := by
  induction bs generalizing a with
  | nil => exact pure fun _ hs => hs
  | cons b bs ih =>
    rw [List.foldlM_cons]
    refine (hf a b List.mem_cons_self bs).bind fun a => ih (fun a c hc => ?_) a
    exact hf a c (List.mem_cons_of_mem b hc)

end Action.Completes

theorem Action.Sustains.attempt {body : Action α} (h : body.Sustains P) :
    (LiquidityNet.attempt body).Sustains P :=
  Completes.mono (Completes.attempt h) (fun _ hs => hs) (fun r _ hs => by cases r <;> exact hs)
    fun _ (hs : P _) => hs

theorem Action.Sustains.and {body : Action α} (h : body.Sustains P) (hkeeps : body.Keeps P') :
    body.Sustains fun s => P s ∧ P' s := by
  intro s r t hs hrun
  have hsustained := h s r t hs.1 hrun
  have hkept := hkeeps s r t hs.2 hrun
  rcases r with (e | f) | a
  · exact ⟨hsustained, hkept⟩
  · exact hsustained
  · exact ⟨hsustained, hkept⟩

/-- From `P`, no run ends in a fault, wherever it leads. -/
abbrev Action.Safe (P : Ledger → Prop) (body : Action α) : Prop :=
  body.Completes P (fun _ _ => True) fun _ => True

namespace Action.Safe

theorem of_faultless {body : Action α} (h : body.Faultless) : body.Safe P := by
  intro s r t _ hrun
  rcases r with (e | f) | a
  · trivial
  · exact h s f t hrun
  · trivial

theorem of_completes {Q : α → Ledger → Prop} {R : Ledger → Prop} {body : Action α}
    (h : body.Completes P Q R) : body.Safe P :=
  h.mono (fun _ hs => hs) (fun _ _ _ => trivial) fun _ _ => trivial

/-- Where a run leads can be told apart from its meeting no fault. -/
theorem leading {Q : α → Ledger → Prop} {R : Ledger → Prop} {body : Action α} (h : body.Safe P)
    (hleads : body.Leads P Q R) : body.Completes P Q R := by
  intro s r t hs hrun
  have ht := hleads s r t hs hrun
  rcases r with (e | f) | a
  · exact ht
  · exact h s _ t hs hrun
  · exact ht

theorem confined {body : Action α} (h : body.Safe P) (hbody : body.Confined Ts)
    (hP : ∀ s t, Ledger.Changes Ts s t → P s → P t) : body.Sustains P :=
  h.leading (.of_confined hbody hP)

theorem attempt {body : Action α} (h : body.Safe P) : (LiquidityNet.attempt body).Safe P :=
  Completes.mono (Completes.attempt h) (fun _ hs => hs) (fun _ _ _ => trivial)
    fun _ (_ : True) => trivial

theorem transactionally {body : Action α} (hconfined : body.Confined Ts) (h : body.Safe P)
    (hP : ∀ s t, Ledger.Alike s t → P s → P t) : (LiquidityNet.transactionally body).Safe P :=
  Completes.transactionally hconfined h hP (fun _ _ => trivial) fun _ _ _ _ _ => trivial

end Action.Safe

end LiquidityNet
