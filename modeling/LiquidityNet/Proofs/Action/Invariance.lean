import LiquidityNet.Proofs.Action.Confinement

/-!
# Where actions lead

From every ledger with one property an action leads to ledgers with another, and to ledgers with a
third if it fails. An invariant is a property that leads to itself whatever comes of the action.
-/

namespace LiquidityNet

variable {α β : Type} {P P' E E' : Ledger → Prop} {Q Q' : α → Ledger → Prop} {Ts : List Table}

/-- From `P`, a run that succeeds leads to `Q` of its value, and one that fails to `E`. -/
def Action.Leads (P : Ledger → Prop) (body : Action α) (Q : α → Ledger → Prop)
    (E : Ledger → Prop) : Prop :=
  ∀ s r t, P s → body s = (r, t) →
    match r with
    | .ok a => Q a t
    | .error _ => E t

/-- Whatever comes of the action, `P` still holds. -/
abbrev Action.Keeps (P : Ledger → Prop) (body : Action α) : Prop := body.Leads P (fun _ => P) P

namespace Action.Leads

theorem mono {body : Action α} (h : body.Leads P Q E) (hP : ∀ s, P' s → P s)
    (hQ : ∀ a s, Q a s → Q' a s) (hE : ∀ s, E s → E' s) : body.Leads P' Q' E' := by
  intro s r t hs hrun
  have ht := h s r t (hP s hs) hrun
  cases r with
  | ok a => exact hQ a t ht
  | error e => exact hE t ht

/-- What is led to from more ledgers is led to from fewer. -/
theorem restrict {body : Action α} (h : body.Leads P Q E) (hP : ∀ s, P' s → P s) :
    body.Leads P' Q E :=
  fun s r t hs => h s r t (hP s hs)

/-- What follows from the property may be used throughout. -/
theorem known {body : Action α} {p : Prop} (hp : ∀ s, P s → p) (h : p → body.Leads P Q E) :
    body.Leads P Q E :=
  fun s r t hs => h (hp s hs) s r t hs

theorem pure {a : α} (h : ∀ s, P s → Q a s) : (Pure.pure a : Action α).Leads P Q E := by
  intro s r t hs hrun
  cases hrun
  exact h s hs

theorem refuse {e : Error} (h : ∀ s, P s → E s) :
    (LiquidityNet.refuse e : Action α).Leads P Q E := by
  intro s r t hs hrun
  cases hrun
  exact h s hs

theorem bind {x : Action β} {f : β → Action α} {R : β → Ledger → Prop} (hx : x.Leads P R E)
    (hf : ∀ b, (f b).Leads (R b) Q E) : (x >>= f).Leads P Q E := by
  intro s r t hs hrun
  rw [bind_run] at hrun
  rcases hb : x s with ⟨e | b, u⟩
  · rw [hb] at hrun
    cases hrun
    exact hx s _ _ hs hb
  · rw [hb] at hrun
    exact hf b u r t (hx s _ u hs hb) hrun

/-- What was read is known from then on. -/
theorem readThen {q : Query β} {f : β → Action α} (hE : ∀ s, P s → E s)
    (hf : ∀ b, (f b).Leads (fun s => P s ∧ q s = .ok b) Q E) :
    ((liftM q : Action β) >>= f).Leads P Q E := by
  refine bind (R := fun b s => P s ∧ q s = .ok b) ?_ hf
  intro s r t hs hrun
  rw [read_run] at hrun
  rcases hq : q s with e | b <;> rw [hq] at hrun <;> cases hrun
  · exact hE s hs
  · exact ⟨hs, hq⟩

theorem pastRead {q : Query β} {f : β → Action α} (hE : ∀ s, P s → E s)
    (hf : ∀ b, (f b).Leads P Q E) : ((liftM q : Action β) >>= f).Leads P Q E :=
  readThen hE fun b => (hf b).restrict fun _ h => h.1

/-- What is read has a property that follows from `P`. -/
theorem readFact {q : Query β} {f : β → Action α} {p : β → Prop} (hE : ∀ s, P s → E s)
    (hq : ∀ s b, P s → q s = .ok b → p b) (hf : ∀ b, p b → (f b).Leads P Q E) :
    ((liftM q : Action β) >>= f).Leads P Q E := by
  refine readThen hE fun b => known (p := p b) (fun s hs => hq s b hs.1 hs.2) fun hb => ?_
  exact (hf b hb).restrict fun _ hs => hs.1

theorem checkThen {x : Except Error β} {f : β → Action α} (hE : ∀ s, P s → E s)
    (hf : ∀ b, x = .ok b → (f b).Leads P Q E) : ((liftM x : Action β) >>= f).Leads P Q E := by
  refine bind (R := fun b s => P s ∧ x = .ok b) ?_ ?_
  · intro s r t hs hrun
    rw [check_run] at hrun
    rcases x with e | b <;> cases hrun
    · exact hE s hs
    · exact ⟨hs, rfl⟩
  · intro b s r t hs hrun
    exact hf b hs.2 s r t hs.1 hrun

theorem computeThen {x : Except Fault β} {f : β → Action α} (hE : ∀ s, P s → E s)
    (hf : ∀ b, x = .ok b → (f b).Leads P Q E) : ((liftM x : Action β) >>= f).Leads P Q E := by
  refine bind (R := fun b s => P s ∧ x = .ok b) ?_ ?_
  · intro s r t hs hrun
    rw [compute_run] at hrun
    rcases x with e | b <;> cases hrun
    · exact hE s hs
    · exact ⟨hs, rfl⟩
  · intro b s r t hs hrun
    exact hf b hs.2 s r t hs.1 hrun

theorem ite {c : Prop} [Decidable c] {x y : Action α} (hx : c → x.Leads P Q E)
    (hy : ¬ c → y.Leads P Q E) : (if c then x else y).Leads P Q E := by
  split
  · exact hx ‹_›
  · exact hy ‹_›

theorem attempt {body : Action α} (h : body.Leads P Q E) :
    (LiquidityNet.attempt body).Leads P
      (fun r s => match r with | .ok a => Q a s | .error _ => E s) E := by
  intro s r t hs hrun
  unfold LiquidityNet.attempt at hrun
  rcases hbody : body s with ⟨(e | f) | a, u⟩ <;> rw [hbody] at hrun <;> cases hrun <;>
    exact h s _ _ hs hbody

theorem of_confined {body : Action α} (h : body.Confined Ts)
    (hP : ∀ s t, Ledger.Changes Ts s t → P s → P t) : body.Keeps P := by
  intro s r t hs hrun
  have ht := hP s t (h.changes hrun) hs
  cases r <;> exact ht

theorem forM {f : β → Action Unit} {bs : List β} (hf : ∀ b ∈ bs, (f b).Keeps P) :
    (bs.forM f).Keeps P := by
  induction bs with
  | nil => exact pure fun s hs => hs
  | cons b bs ih =>
    exact (hf b List.mem_cons_self).bind fun _ => ih fun c hc => hf c (List.mem_cons_of_mem b hc)

/-- The property speaks of what is still to be done. -/
theorem forRest {I : List β → Ledger → Prop} {f : β → Action Unit}
    (hf : ∀ b bs, (f b).Leads (I (b :: bs)) (fun _ => I bs) E) (bs : List β) :
    (bs.forM f).Leads (I bs) (fun _ => I []) E := by
  induction bs with
  | nil => exact pure fun s hs => hs
  | cons b bs ih => exact (hf b bs).bind fun _ => ih

theorem foldlM {f : α → β → Action α} {bs : List β} (hf : ∀ a, ∀ b ∈ bs, (f a b).Keeps P) (a : α) :
    (bs.foldlM f a).Keeps P := by
  induction bs generalizing a with
  | nil => exact pure fun s hs => hs
  | cons b bs ih =>
    rw [List.foldlM_cons]
    refine (hf a b List.mem_cons_self).bind fun a' => ih (fun a c hc => ?_) a'
    exact hf a c (List.mem_cons_of_mem b hc)

theorem mapM {f : β → Action α} {bs : List β} (hf : ∀ b ∈ bs, (f b).Keeps P) :
    (bs.mapM f).Keeps P := by
  induction bs with
  | nil => exact pure fun s hs => hs
  | cons b bs ih =>
    rw [List.mapM_cons]
    refine (hf b List.mem_cons_self).bind fun _ => bind (R := fun _ => P) ?_ fun _ => ?_
    · exact ih fun c hc => hf c (List.mem_cons_of_mem b hc)
    · exact pure fun s hs => hs

/-- What passes a filter was filtered. -/
theorem filterM {f : β → Action Bool} {bs : List β} (hf : ∀ b, (f b).Keeps P) :
    (bs.filterM f).Leads P (fun cs s => P s ∧ ∀ c ∈ cs, c ∈ bs) P := by
  have haux : ∀ cs : List β, (bs.filterAuxM f cs).Leads P
      (fun ds s => P s ∧ ∀ d ∈ ds, d ∈ bs ∨ d ∈ cs) P := by
    induction bs with
    | nil => exact fun cs => pure fun s hs => ⟨hs, fun d hd => .inr hd⟩
    | cons b bs ih =>
      intro cs
      refine (hf b).bind fun passes => (ih _).mono (fun _ hs => hs) ?_ fun _ hs => hs
      rintro ds s ⟨hs, hds⟩
      refine ⟨hs, fun d hd => ?_⟩
      cases passes with
      | false => exact (hds d hd).imp_left (List.mem_cons_of_mem b)
      | true =>
        rcases hds d hd with hmem | hmem
        · exact .inl (List.mem_cons_of_mem b hmem)
        · rcases List.mem_cons.1 hmem with rfl | hmem
          · exact .inl List.mem_cons_self
          · exact .inr hmem
  refine (haux []).bind fun ds => pure ?_
  rintro s ⟨hs, hds⟩
  refine ⟨hs, fun d hd => ?_⟩
  exact (hds d (List.mem_reverse.1 hd)).resolve_right List.not_mem_nil

/-- What lies in a checkpoint leads where the checkpoint does, as far as a commit keeps it. -/
theorem committed {body : Action α} (hconfined : body.Confined Ts) (h : body.Leads P Q E)
    (hP : ∀ s, P s → P s.checkpointed) (hE : ∀ s, P s → E s)
    (hQ : ∀ a (s t : Ledger), s.CommitsTo t → Q a s → Q a t) :
    (LiquidityNet.transactionally body).Leads P Q E := by
  intro s r t hs hrun
  have hopen : P s.checkpointed := hP s hs
  rcases transactionally_cases hconfined hrun with ⟨a, u, rfl, hbody, hcommit⟩ |
    ⟨e, u, rfl, -, rfl⟩ | ⟨f, rfl, hbody⟩
  · exact hQ a u t hcommit (h _ _ _ hopen hbody)
  · exact hE t hs
  · exact h _ _ _ hopen hbody

/-- A commit keeps what depends on the records in sight. -/
theorem transactionally {body : Action α} (hconfined : body.Confined Ts) (h : body.Leads P Q E)
    (hP : ∀ s, P s → P s.checkpointed) (hE : ∀ s, P s → E s)
    (hQ : ∀ a (s t : Ledger), (∀ k, t.get? k = s.get? k) → Q a s → Q a t) :
    (LiquidityNet.transactionally body).Leads P Q E :=
  committed hconfined h hP hE fun a s t hcommit => hQ a s t hcommit.get?

end Action.Leads

theorem Action.Keeps.attempt {body : Action α} (h : body.Keeps P) :
    (LiquidityNet.attempt body).Keeps P :=
  Leads.mono (Leads.attempt h) (fun _ hs => hs) (fun r _ hs => by cases r <;> exact hs)
    fun _ hs => hs

theorem Action.Keeps.transactionally {body : Action α} (hconfined : body.Confined Ts)
    (h : body.Keeps P) (hP : ∀ s t : Ledger, (∀ k, t.get? k = s.get? k) → P s → P t) :
    (LiquidityNet.transactionally body).Keeps P :=
  Leads.transactionally hconfined h (fun s => hP s _ s.get?_checkpointed) (fun _ hs => hs)
    fun _ => hP

theorem Action.Keeps.after {body : Action α} (h : body.Keeps P) {s : Ledger} (hs : P s) :
    P (body s).2 := by
  rcases hrun : body s with ⟨r, t⟩
  have ht := h s r t hs hrun
  cases r <;> exact ht

/-! ## Refusals and faults apart -/

/-- From `P`, a run that succeeds leads to `Q` of its value, and one that is refused to `R`. A fault
may end it anywhere. -/
def Action.Yields (P : Ledger → Prop) (body : Action α) (Q : α → Ledger → Prop)
    (R : Ledger → Prop) : Prop :=
  ∀ s r t, P s → body s = (r, t) →
    match r with
    | .ok a => Q a t
    | .error (.refused _) => R t
    | .error (.fault _) => True

namespace Action.Yields

variable {R R' : Ledger → Prop}

theorem of_leads {body : Action α} (h : body.Leads P Q R) : body.Yields P Q R := by
  intro s r t hs hrun
  have ht := h s r t hs hrun
  rcases r with (e | f) | a
  · exact ht
  · trivial
  · exact ht

theorem mono {body : Action α} (h : body.Yields P Q R) (hP : ∀ s, P' s → P s)
    (hQ : ∀ a s, Q a s → Q' a s) (hR : ∀ s, R s → R' s) : body.Yields P' Q' R' := by
  intro s r t hs hrun
  have ht := h s r t (hP s hs) hrun
  rcases r with (e | f) | a
  · exact hR t ht
  · trivial
  · exact hQ a t ht

theorem restrict {body : Action α} (h : body.Yields P Q R) (hP : ∀ s, P' s → P s) :
    body.Yields P' Q R :=
  fun s r t hs => h s r t (hP s hs)

theorem known {body : Action α} {p : Prop} (hp : ∀ s, P s → p) (h : p → body.Yields P Q R) :
    body.Yields P Q R :=
  fun s r t hs => h (hp s hs) s r t hs

theorem pure {a : α} (h : ∀ s, P s → Q a s) : (Pure.pure a : Action α).Yields P Q R :=
  of_leads (.pure h)

theorem bind {x : Action β} {f : β → Action α} {S : β → Ledger → Prop} (hx : x.Yields P S R)
    (hf : ∀ b, (f b).Yields (S b) Q R) : (x >>= f).Yields P Q R := by
  intro s r t hs hrun
  rw [bind_run] at hrun
  rcases hb : x s with ⟨(e | e) | b, u⟩
  · rw [hb] at hrun
    cases hrun
    exact hx s _ _ hs hb
  · rw [hb] at hrun
    cases hrun
    trivial
  · rw [hb] at hrun
    exact hf b u r t (hx s _ u hs hb) hrun

theorem ite {c : Prop} [Decidable c] {x y : Action α} (hx : c → x.Yields P Q R)
    (hy : ¬ c → y.Yields P Q R) : (if c then x else y).Yields P Q R := by
  split
  · exact hx ‹_›
  · exact hy ‹_›

/-- What is read may be refused, which changes nothing. -/
theorem readThen {q : Query β} {f : β → Action α} (hR : ∀ s, P s → R s)
    (hf : ∀ b, (f b).Yields (fun s => P s ∧ q s = .ok b) Q R) :
    ((liftM q : Action β) >>= f).Yields P Q R := by
  refine bind (S := fun b s => P s ∧ q s = .ok b) ?_ hf
  intro s r t hs hrun
  rw [read_run] at hrun
  rcases hq : q s with (e | e) | b <;> rw [hq] at hrun <;> cases hrun
  · exact hR s hs
  · trivial
  · exact ⟨hs, hq⟩

theorem readFact {q : Query β} {f : β → Action α} {p : β → Prop} (hR : ∀ s, P s → R s)
    (hq : ∀ s b, P s → q s = .ok b → p b) (hf : ∀ b, p b → (f b).Yields P Q R) :
    ((liftM q : Action β) >>= f).Yields P Q R := by
  refine readThen hR fun b s r t hs hrun => ?_
  exact hf b (hq s b hs.1 hs.2) s r t hs.1 hrun

theorem pastRead {q : Query β} {f : β → Action α} (hR : ∀ s, P s → R s)
    (hf : ∀ b, (f b).Yields P Q R) : ((liftM q : Action β) >>= f).Yields P Q R :=
  readFact (p := fun _ => True) hR (fun _ _ _ _ => trivial) fun b _ => hf b

/-- What can always be read is never refused. -/
theorem read {q : Query β} (hq : ∀ s, P s → ∃ b, q s = .ok b) :
    (liftM q : Action β).Yields P (fun b s => P s ∧ q s = .ok b) R := by
  intro s r t hs hrun
  obtain ⟨b, hb⟩ := hq s hs
  rw [read_run, hb] at hrun
  cases hrun
  exact ⟨hs, hb⟩

theorem attempt {body : Action α} (h : body.Yields P Q R) :
    (LiquidityNet.attempt body).Yields P
      (fun r s => match r with | .ok a => Q a s | .error _ => R s) R' := by
  intro s r t hs hrun
  unfold LiquidityNet.attempt at hrun
  rcases hbody : body s with ⟨(e | f) | a, u⟩ <;> rw [hbody] at hrun <;> cases hrun
  · exact h s _ _ hs hbody
  · trivial
  · exact h s _ _ hs hbody

/-- The property speaks of what is done so far. -/
theorem mapM_done {I : List β → Ledger → Prop} {f : β → Action α} {bs : List β}
    (hf : ∀ b ∈ bs, ∀ done, (f b).Yields (I done) (fun _ => I (done ++ [b])) R) (done : List β) :
    (bs.mapM f).Yields (I done) (fun _ => I (done ++ bs)) R := by
  induction bs generalizing done with
  | nil => exact pure fun s hs => (List.append_nil done).symm ▸ hs
  | cons b bs ih =>
    rw [List.mapM_cons]
    refine bind (hf b List.mem_cons_self done) fun _ => ?_
    refine bind (ih (fun c hc => hf c (List.mem_cons_of_mem b hc)) (done ++ [b])) fun _ => ?_
    exact pure fun s hs => by rwa [List.append_assoc] at hs

theorem forM_done {I : List β → Ledger → Prop} {f : β → Action Unit} {bs : List β}
    (hf : ∀ b ∈ bs, ∀ done, (f b).Yields (I done) (fun _ => I (done ++ [b])) R) (done : List β) :
    (bs.forM f).Yields (I done) (fun _ => I (done ++ bs)) R := by
  induction bs generalizing done with
  | nil => exact pure fun s hs => (List.append_nil done).symm ▸ hs
  | cons b bs ih =>
    refine bind (hf b List.mem_cons_self done) fun _ => ?_
    refine (ih (fun c hc => hf c (List.mem_cons_of_mem b hc)) (done ++ [b])).mono (fun _ hs => hs)
      (fun _ s hs => ?_) fun _ hs => hs
    rwa [List.append_assoc] at hs

theorem forM {f : β → Action Unit} {bs : List β}
    (hf : ∀ b ∈ bs, (f b).Yields P (fun _ => P) R) : (bs.forM f).Yields P (fun _ => P) R := by
  induction bs with
  | nil => exact pure fun s hs => hs
  | cons b bs ih =>
    exact (hf b List.mem_cons_self).bind fun _ => ih fun c hc => hf c (List.mem_cons_of_mem b hc)

/-- The property speaks of the values given so far. -/
theorem mapM {I : List β → Ledger → Prop} {f : α → Action β} {as : List α}
    (hf : ∀ a ∈ as, ∀ bs, (f a).Yields (I bs) (fun b => I (bs ++ [b])) R) (bs : List β) :
    (as.mapM f).Yields (I bs) (fun cs => I (bs ++ cs)) R := by
  induction as generalizing bs with
  | nil => exact pure fun s hs => (List.append_nil bs).symm ▸ hs
  | cons a as ih =>
    rw [List.mapM_cons]
    refine bind (hf a List.mem_cons_self bs) fun b => ?_
    refine bind (ih (fun c hc => hf c (List.mem_cons_of_mem a hc)) (bs ++ [b])) fun cs => ?_
    exact pure fun s hs => by rwa [List.append_assoc] at hs

end Action.Yields

/-- An action that is never refused. -/
abbrev Action.Answers (body : Action α) : Prop :=
  body.Yields (fun _ => True) (fun _ _ => True) fun _ => False

namespace Action.Answers

theorem not_refused {body : Action α} (h : body.Answers) (s : Ledger) (e : Error) (t : Ledger) :
    body s ≠ (.error (.refused e), t) :=
  fun hrun => h s _ t trivial hrun

theorem pure (a : α) : Answers (Pure.pure a : Action α) := Yields.pure fun _ _ => trivial

theorem attempt (body : Action α) : (LiquidityNet.attempt body).Answers := by
  have hbody : body.Yields (fun _ => True) (fun _ _ => True) fun _ => True := by
    intro s r t _ _
    rcases r with (e | f) | a <;> trivial
  exact hbody.attempt.mono (fun _ h => h) (fun _ _ _ => trivial) fun _ h => h

theorem read {q : Query α} (hq : ∀ s, ∃ a, q s = .ok a) : (liftM q : Action α).Answers :=
  (Yields.read fun s _ => hq s).mono (fun _ h => h) (fun _ _ _ => trivial) fun _ h => h

theorem erase (key : String) : (Ledger.erase key).Answers := by
  intro s r t _ hrun
  cases hrun
  trivial

theorem emit (e : Event) : (Ledger.emit e).Answers := by
  intro s r t _ hrun
  cases hrun
  trivial

theorem drain : Ledger.drain.Answers := by
  intro s r t _ hrun
  cases hrun
  trivial

theorem bind {x : Action α} {f : α → Action β} (hx : x.Answers) (hf : ∀ a, (f a).Answers) :
    (x >>= f).Answers :=
  Yields.bind hx hf

theorem mapM {f : α → Action β} (hf : ∀ a, (f a).Answers) (as : List α) :
    (as.mapM f).Answers :=
  Yields.mapM (I := fun _ _ => True) (fun a _ _ => hf a) []

end Action.Answers

theorem Action.Keeps.answered {body : Action α} {R : Ledger → Prop} (h : body.Keeps P)
    (hanswers : body.Answers) : body.Yields P (fun _ => P) R := by
  intro s r t hs hrun
  have ht := h s r t hs hrun
  rcases r with (e | f) | a
  · exact absurd hrun (hanswers.not_refused s e t)
  · trivial
  · exact ht

end LiquidityNet
