import LiquidityNet.Ledger.Basic

/-!
# Running actions and queries

What each construct of an action makes of a ledger, and how a successful run is taken apart into
the runs of its parts.
-/

namespace LiquidityNet

variable {α β : Type}

theorem eq_ok_of_toOption {ε : Type} {x : Except ε α} {a : α} (h : x.toOption = some a) :
    x = .ok a := by
  cases x with
  | error e => cases h
  | ok b => exact congrArg Except.ok (Option.some.inj h)

namespace Action

/-- The outcome of a run lies in the identity monad, where pairs are equal as pairs are. -/
@[simp] theorem outcome_eq {x y : Except Failure α} {s t : Ledger} :
    @Eq (Id (Except Failure α × Ledger)) (x, s) (y, t) ↔ x = y ∧ s = t :=
  Prod.mk.injEq x s y t ▸ Iff.rfl

@[simp] theorem pure_run (a : α) (s : Ledger) : (pure a : Action α) s = (.ok a, s) := rfl

@[simp] theorem read_run (q : Query α) (s : Ledger) : (liftM q : Action α) s = (q s, s) := rfl

@[simp] theorem refuse_run (e : Error) (s : Ledger) :
    (refuse e : Action α) s = (.error (.refused e), s) := rfl

theorem refuse_bind (e : Error) (f : α → Action β) : (refuse e : Action α) >>= f = refuse e := rfl

theorem bind_run (x : Action α) (f : α → Action β) (s : Ledger) :
    (x >>= f) s = match x s with
      | (.ok a, t) => f a t
      | (.error e, t) => (.error e, t) := by
  rcases h : x s with ⟨e | a, t⟩
  · simp [bind, ExceptT.bind, ExceptT.mk, StateT.bind, ExceptT.bindCont, h]
    rfl
  · simp [bind, ExceptT.bind, ExceptT.mk, StateT.bind, ExceptT.bindCont, h]

theorem bind_eq_ok {x : Action α} {f : α → Action β} {s t : Ledger} {b : β} :
    (x >>= f) s = (.ok b, t) ↔ ∃ a u, x s = (.ok a, u) ∧ f a u = (.ok b, t) := by
  rw [bind_run]
  rcases x s with ⟨e | a, u⟩
  · simp
  · constructor
    · intro h
      exact ⟨a, u, rfl, h⟩
    · rintro ⟨a', u', hx, hf⟩
      cases hx
      exact hf

theorem bind_eq_error {x : Action α} {f : α → Action β} {s t : Ledger} {e : Failure} :
    (x >>= f) s = (.error e, t) ↔
      x s = (.error e, t) ∨ ∃ a u, x s = (.ok a, u) ∧ f a u = (.error e, t) := by
  rw [bind_run]
  rcases x s with ⟨e' | a, u⟩
  · simp
  · constructor
    · intro h
      exact .inr ⟨a, u, rfl, h⟩
    · rintro (hx | ⟨a', u', hx, hf⟩)
      · cases hx
      · cases hx
        exact hf

theorem read_bind_run (q : Query α) (f : α → Action β) (s : Ledger) :
    ((liftM q : Action α) >>= f) s = match q s with
      | .ok a => f a s
      | .error e => (.error e, s) := by
  rw [bind_run, read_run]
  rcases q s with e | a <;> rfl

theorem read_bind_cases {q : Query α} {f : α → Action β} {s t : Ledger} {r : Except Failure β}
    (h : ((liftM q : Action α) >>= f) s = (r, t)) :
    (∃ e, q s = .error e ∧ r = .error e ∧ t = s) ∨ ∃ a, q s = .ok a ∧ f a s = (r, t) := by
  rw [read_bind_run] at h
  rcases hq : q s with e | a <;> rw [hq] at h
  · cases h
    exact .inl ⟨e, rfl, rfl, rfl⟩
  · exact .inr ⟨a, rfl, h⟩

theorem read_bind_eq_ok {q : Query α} {f : α → Action β} {s t : Ledger} {b : β} :
    ((liftM q : Action α) >>= f) s = (.ok b, t) ↔ ∃ a, q s = .ok a ∧ f a s = (.ok b, t) := by
  rw [read_bind_run]
  cases q s <;> simp

@[simp] theorem check_run (x : Except Error α) (s : Ledger) :
    (liftM x : Action α) s = (x.mapError .refused, s) := by
  cases x <;> rfl

@[simp] theorem compute_run (x : Except Fault α) (s : Ledger) :
    (liftM x : Action α) s = (x.mapError .fault, s) := by
  cases x <;> rfl

/-- What depends on no ledger is passed if it holds. -/
theorem pass_bind_eq_ok {ε : Type} {x : Except ε α} {g : ε → Failure} {y : Action α}
    {f : α → Action β} {s t : Ledger} {b : β} (hy : y s = (x.mapError g, s)) :
    (y >>= f) s = (.ok b, t) ↔ ∃ a, x = .ok a ∧ f a s = (.ok b, t) := by
  rw [bind_run, hy]
  cases x with
  | error e =>
    constructor
    · intro h
      cases h
    · rintro ⟨_, hx, -⟩
      cases hx
  | ok a =>
    constructor
    · intro h
      exact ⟨a, rfl, h⟩
    · rintro ⟨_, hx, h⟩
      cases hx
      exact h

theorem check_bind_eq_ok {x : Except Error α} {f : α → Action β} {s t : Ledger} {b : β} :
    ((liftM x : Action α) >>= f) s = (.ok b, t) ↔ ∃ a, x = .ok a ∧ f a s = (.ok b, t) :=
  pass_bind_eq_ok (check_run x s)

theorem compute_bind_eq_ok {x : Except Fault α} {f : α → Action β} {s t : Ledger} {b : β} :
    ((liftM x : Action α) >>= f) s = (.ok b, t) ↔ ∃ a, x = .ok a ∧ f a s = (.ok b, t) :=
  pass_bind_eq_ok (compute_run x s)

theorem attempt_eq_ok {body : Action α} {s t : Ledger} {x : Except Error α} :
    attempt body s = (.ok x, t) ↔
      (∃ a, x = .ok a ∧ body s = (.ok a, t)) ∨
        ∃ e, x = .error e ∧ body s = (.error (.refused e), t) := by
  unfold attempt
  rcases body s with ⟨(e | f) | a, u⟩
  · constructor
    · intro h
      cases h
      exact .inr ⟨e, rfl, rfl⟩
    · rintro (⟨_, -, h⟩ | ⟨_, rfl, h⟩) <;> cases h
      rfl
  · simp
  · constructor
    · intro h
      cases h
      exact .inl ⟨a, rfl, rfl⟩
    · rintro (⟨_, rfl, h⟩ | ⟨_, -, h⟩) <;> cases h
      rfl

end Action

namespace Query

@[simp] theorem pure_run (a : α) (s : Ledger) : (pure a : Query α) s = .ok a := rfl

@[simp] theorem refuse_run (e : Error) (s : Ledger) :
    (refuse e : Query α) s = .error (.refused e) := rfl

theorem refuse_bind (e : Error) (f : α → Query β) : (refuse e : Query α) >>= f = refuse e := rfl

theorem bind_run (q : Query α) (f : α → Query β) (s : Ledger) :
    (q >>= f) s = match q s with
      | .ok a => f a s
      | .error e => .error e := by
  rcases h : q s with _ | _ <;> simp [bind, ReaderT.bind, Except.bind, h]

theorem bind_eq_ok {q : Query α} {f : α → Query β} {s : Ledger} {b : β} :
    (q >>= f) s = .ok b ↔ ∃ a, q s = .ok a ∧ f a s = .ok b := by
  rw [bind_run]
  cases q s <;> simp

theorem bind_eq_error {q : Query α} {f : α → Query β} {s : Ledger} {e : Failure} :
    (q >>= f) s = .error e ↔ q s = .error e ∨ ∃ a, q s = .ok a ∧ f a s = .error e := by
  rw [bind_run]
  cases q s <;> simp

theorem bind_ok {q : Query α} {f : α → Query β} {s : Ledger} (hq : ∃ a, q s = .ok a)
    (hf : ∀ a, ∃ b, f a s = .ok b) : ∃ b, (q >>= f) s = .ok b := by
  obtain ⟨a, ha⟩ := hq
  obtain ⟨b, hb⟩ := hf a
  exact ⟨b, bind_eq_ok.2 ⟨a, ha, hb⟩⟩

theorem ite_ok {c : Prop} [Decidable c] {x y : Query α} {s : Ledger} (hx : ∃ a, x s = .ok a)
    (hy : ∃ a, y s = .ok a) : ∃ a, (if c then x else y) s = .ok a := by
  split
  · exact hx
  · exact hy

/-- What reads the same goes on the same. -/
theorem bind_congr {q : Query α} {f : α → Query β} {s t : Ledger} (hq : q t = q s)
    (hf : ∀ a, f a t = f a s) : (q >>= f) t = (q >>= f) s := by
  rw [bind_run, bind_run, hq]
  cases q s with
  | error e => rfl
  | ok a => exact hf a

theorem ite_congr {c : Prop} [Decidable c] {x y : Query α} {s t : Ledger} (hx : x t = x s)
    (hy : y t = y s) : (if c then x else y) t = (if c then x else y) s := by
  split
  · exact hx
  · exact hy

/-- What passes a refusal does not meet its condition. -/
theorem unless_eq_ok {c : Prop} [Decidable c] {e : Error} {q : Query α} {s : Ledger} {a : α} :
    (if c then refuse e else q) s = .ok a ↔ ¬ c ∧ q s = .ok a := by
  split
  · rename_i hc
    simp [hc]
  · rename_i hc
    simp [hc]

@[simp] theorem compute_run (x : Except Fault α) (s : Ledger) :
    (liftM x : Query α) s = x.mapError .fault := by
  cases x <;> rfl

/-- What a query computes is what is computed. -/
theorem compute_eq_ok {x : Except Fault α} {s : Ledger} {a : α} :
    (liftM x : Query α) s = .ok a ↔ x = .ok a := by
  rw [compute_run]
  cases x with
  | error e => exact ⟨nofun, nofun⟩
  | ok b =>
    constructor
    · intro h
      exact congrArg Except.ok (Except.ok.inj h)
    · intro h
      exact congrArg Except.ok (Except.ok.inj h)

@[simp] theorem check_run (x : Except Error α) (s : Ledger) :
    (liftM x : Query α) s = x.mapError .refused := by
  cases x <;> rfl

/-! Lists of readings -/

theorem mem_of_mapM {f : α → Query β} {s : Ledger} {as : List α} {bs : List β}
    (h : as.mapM f s = .ok bs) {b : β} (hb : b ∈ bs) : ∃ a ∈ as, f a s = .ok b := by
  induction as generalizing bs with
  | nil =>
    cases h
    cases hb
  | cons a as ih =>
    rw [List.mapM_cons] at h
    obtain ⟨c, hc, h⟩ := bind_eq_ok.1 h
    obtain ⟨cs, hcs, h⟩ := bind_eq_ok.1 h
    cases h
    rcases List.mem_cons.1 hb with rfl | hb
    · exact ⟨a, List.mem_cons_self, hc⟩
    · obtain ⟨a', ha', hb'⟩ := ih hcs hb
      exact ⟨a', List.mem_cons_of_mem a ha', hb'⟩

theorem exists_of_mapM {f : α → Query β} {s : Ledger} {as : List α} {bs : List β}
    (h : as.mapM f s = .ok bs) {a : α} (ha : a ∈ as) : ∃ b ∈ bs, f a s = .ok b := by
  induction as generalizing bs with
  | nil => cases ha
  | cons a' as ih =>
    rw [List.mapM_cons] at h
    obtain ⟨c, hc, h⟩ := bind_eq_ok.1 h
    obtain ⟨cs, hcs, h⟩ := bind_eq_ok.1 h
    cases h
    rcases List.mem_cons.1 ha with rfl | ha
    · exact ⟨c, List.mem_cons_self, hc⟩
    · obtain ⟨b, hb, hread⟩ := ih hcs ha
      exact ⟨b, List.mem_cons_of_mem c hb, hread⟩

theorem anyM_eq_false {f : α → Query Bool} {s : Ledger} {as : List α}
    (h : as.anyM f s = .ok false) {a : α} (ha : a ∈ as) : f a s = .ok false := by
  induction as with
  | nil => cases ha
  | cons a' as ih =>
    rw [List.anyM_cons] at h
    obtain ⟨found, hfound, h⟩ := bind_eq_ok.1 h
    cases found with
    | true => cases h
    | false =>
      rcases List.mem_cons.1 ha with rfl | ha
      · exact hfound
      · exact ih h ha

theorem mapM_ok {f : α → Query β} {s : Ledger} {as : List α}
    (h : ∀ a ∈ as, ∃ b, f a s = .ok b) : ∃ bs, as.mapM f s = .ok bs := by
  induction as with
  | nil => exact ⟨[], rfl⟩
  | cons a as ih =>
    obtain ⟨b, hb⟩ := h a List.mem_cons_self
    obtain ⟨bs, hbs⟩ := ih fun c hc => h c (List.mem_cons_of_mem a hc)
    rw [List.mapM_cons]
    exact ⟨b :: bs, bind_eq_ok.2 ⟨b, hb, bind_eq_ok.2 ⟨bs, hbs, rfl⟩⟩⟩

/-- What each reading takes over from what it is for, the list takes over. -/
theorem map_of_mapM {γ : Type} {f : α → Query β} {s : Ledger} {g : α → γ} {k : β → γ}
    (hf : ∀ a b, f a s = .ok b → k b = g a) {as : List α} {bs : List β}
    (h : as.mapM f s = .ok bs) : bs.map k = as.map g := by
  induction as generalizing bs with
  | nil =>
    cases h
    rfl
  | cons a as ih =>
    rw [List.mapM_cons] at h
    obtain ⟨c, hc, h⟩ := bind_eq_ok.1 h
    obtain ⟨cs, hcs, h⟩ := bind_eq_ok.1 h
    cases h
    rw [List.map_cons, List.map_cons, hf a c hc, ih hcs]

end Query

/-- What changes nothing for each changes nothing for all. -/
theorem Action.forM_still {f : α → Action Unit} {s : Ledger} {as : List α}
    (h : ∀ a ∈ as, f a s = (.ok (), s)) : as.forM f s = (.ok (), s) := by
  induction as with
  | nil => rfl
  | cons a as ih =>
    show (f a >>= fun _ => as.forM f) s = _
    rw [Action.bind_run, h a List.mem_cons_self]
    exact ih fun b hb => h b (List.mem_cons_of_mem a hb)

/-- A list of readings reads one ledger throughout. -/
theorem Action.mapM_read_ok {f : α → Query β} {as : List α} {bs : List β} {s t : Ledger}
    (h : (as.mapM fun a => (liftM (f a) : Action β)) s = (.ok bs, t)) :
    as.mapM f s = .ok bs ∧ t = s := by
  induction as generalizing bs t with
  | nil =>
    cases h
    exact ⟨rfl, rfl⟩
  | cons a as ih =>
    rw [List.mapM_cons] at h ⊢
    obtain ⟨b, hb, h⟩ := Action.read_bind_eq_ok.1 h
    obtain ⟨cs, u, hcs, hend⟩ := Action.bind_eq_ok.1 h
    obtain ⟨hread, rfl⟩ := ih hcs
    cases hend
    exact ⟨Query.bind_eq_ok.2 ⟨b, hb, Query.bind_eq_ok.2 ⟨cs, hread, rfl⟩⟩, rfl⟩

/-! ## The ledger's own operations -/

namespace Ledger

variable [Recordable α]

/-- The record in sight under a key. -/
def get? (s : Ledger) (k : String) : Option Record := s.store.get? k

@[simp] theorem currentHeight_run (s : Ledger) : currentHeight s = .ok s.height := rfl

@[simp] theorem put_run (key : String) (a : α) (s : Ledger) :
    put key a s = (.ok (), { s with store := s.store.set key (toRecord a) }) := rfl

@[simp] theorem erase_run (key : String) (s : Ledger) :
    erase key s = (.ok (), { s with store := s.store.erase key }) := rfl

@[simp] theorem emit_run (e : Event) (s : Ledger) :
    emit e s = (.ok (), { s with store := s.store.emit e }) := rfl

theorem fetch?_eq_ok {key : String} {s : Ledger} {o : Option α} :
    fetch? key s = .ok o ↔
      (s.get? key = none ∧ o = none) ∨
        ∃ r a, s.get? key = some r ∧ ofRecord? r = some a ∧ o = some a := by
  unfold fetch? get?
  cases s.store.get? key with
  | none => simp [eq_comm]
  | some r =>
    cases h : (ofRecord? r : Option α) <;> simp [h, eq_comm]

theorem fetch?_congr {key : String} {s t : Ledger} (h : t.get? key = s.get? key) :
    (fetch? key t : Except Failure (Option α)) = fetch? key s := by
  unfold fetch?
  rw [show t.store.get? key = s.store.get? key from h]

theorem fetchD_run (key : String) (d : α) (s : Ledger) :
    fetchD key d s = (fetch? key s).map (·.getD d) := by
  rw [fetchD, Query.bind_run]
  cases (fetch? key s : Except Failure (Option α)) <;> rfl

theorem fetchD_eq_ok {key : String} {d a : α} {s : Ledger} :
    fetchD key d s = .ok a ↔
      (s.get? key = none ∧ a = d) ∨ ∃ r, s.get? key = some r ∧ ofRecord? r = some a := by
  rw [fetchD, Query.bind_eq_ok]
  constructor
  · rintro ⟨o, ho, ha⟩
    obtain rfl := Except.ok.inj ha
    rcases fetch?_eq_ok.1 ho with ⟨hnone, rfl⟩ | ⟨r, b, hr, hb, rfl⟩
    · exact .inl ⟨hnone, rfl⟩
    · exact .inr ⟨r, hr, hb⟩
  · rintro (⟨hnone, rfl⟩ | ⟨r, hr, ha⟩)
    · exact ⟨none, fetch?_eq_ok.2 (.inl ⟨hnone, rfl⟩), rfl⟩
    · exact ⟨some a, fetch?_eq_ok.2 (.inr ⟨r, a, hr, ha, rfl⟩), rfl⟩

end Ledger

end LiquidityNet
