import LiquidityNet.Proofs.Action.Equations
import LiquidityNet.Proofs.Ledger.Catalogue
import LiquidityNet.Proofs.Store.Growth

/-!
# Confinement

An action is confined to some tables if it writes to no other, files what it writes where it
belongs, closes every checkpoint it opens unless a fault ends it, and leaves the checkpoints it
found open. Each construct of an action keeps confinement, so the text of an action tells its
tables. A checkpoint around a confined action restores the ledger exactly when the action is
refused.
-/

namespace LiquidityNet

variable {α β : Type} {Ts Us : List Table} {s t u : Ledger}

namespace Ledger

/-- The second ledger comes out of the first by writes to some tables. -/
structure Changes (Ts : List Table) (s t : Ledger) : Prop where
  settings : t.settings = s.settings
  height : t.height = s.height
  growth : s.store.GrowsTo t.store
  records : ∀ k, t.get? k = s.get? k ∨
    (∃ T ∈ Ts, Table.ofKey? k = some T) ∧ ∀ r, t.get? k = some r → r.FiledAt k

theorem Changes.refl (Ts : List Table) (s : Ledger) : Changes Ts s s :=
  ⟨rfl, rfl, .refl s.store, fun _ => .inl rfl⟩

theorem Changes.trans (hst : Changes Ts s t) (htu : Changes Ts t u) : Changes Ts s u where
  settings := htu.settings.trans hst.settings
  height := htu.height.trans hst.height
  growth := hst.growth.trans htu.growth
  records := by
    intro k
    rcases htu.records k with hu | hu
    · rcases hst.records k with ht | ht
      · exact .inl (hu.trans ht)
      · exact .inr ⟨ht.1, fun r hr => ht.2 r (hu ▸ hr)⟩
    · exact .inr hu

theorem Changes.mono (h : Changes Ts s t) (hTs : ∀ T ∈ Ts, T ∈ Us) : Changes Us s t where
  settings := h.settings
  height := h.height
  growth := h.growth
  records := by
    intro k
    rcases h.records k with hk | ⟨⟨T, hT, hk⟩, hr⟩
    · exact .inl hk
    · exact .inr ⟨⟨T, hTs T hT, hk⟩, hr⟩

theorem Changes.get?_eq (h : Changes Ts s t) {k : String} {T : Table}
    (hk : Table.ofKey? k = some T) (hT : T ∉ Ts) : t.get? k = s.get? k := by
  rcases h.records k with hrec | ⟨⟨U, hU, hkU⟩, _⟩
  · exact hrec
  · rw [hk] at hkU
    cases hkU
    exact absurd hU hT

theorem Changes.filed (h : Changes Ts s t) (hs : s.Filed) : t.Filed := by
  intro k r hr
  rcases h.records k with hk | hk
  · exact hs k r (hk ▸ hr)
  · exact hk.2 r hr

theorem changes_assign {k : String} {v : Option Record} {T : Table} (hT : T ∈ Ts)
    (hk : Table.ofKey? k = some T) (hv : ∀ r, v = some r → r.FiledAt k) :
    Changes Ts s { s with store := s.store.assign k v } where
  settings := rfl
  height := rfl
  growth := LayeredStore.growsTo_assign s.store k v
  records := by
    intro q
    rw [get?_assign]
    by_cases hq : q = k
    · subst hq
      rw [if_pos rfl]
      exact .inr ⟨⟨T, hT, hk⟩, hv⟩
    · exact .inl (if_neg hq)

theorem changes_putRecord {k : String} {r : Record} {T : Table} (hT : T ∈ Ts)
    (hk : Table.ofKey? k = some T) (hr : r.FiledAt k) : Changes Ts s (s.putRecord k r) :=
  changes_assign hT hk fun _ h => Option.some.inj h ▸ hr

theorem changes_emit (e : Event) : Changes Ts s { s with store := s.store.emit e } where
  settings := rfl
  height := rfl
  growth := LayeredStore.growsTo_emit s.store e
  records := fun k => .inl (LayeredStore.get?_emit s.store e k)

end Ledger

open Ledger

/-- An action that writes to some tables only and leaves no checkpoint open unless it ends in a
fault. -/
structure Action.Confined (Ts : List Table) (body : Action α) : Prop where
  changes : ∀ {s r t}, body s = (r, t) → Changes Ts s t
  depth : ∀ {s r t}, body s = (r, t) → (∀ f, r ≠ .error (.fault f)) →
    t.store.depth = s.store.depth

namespace Action.Confined

theorem mono {body : Action α} (h : Confined Ts body) (hTs : ∀ T ∈ Ts, T ∈ Us) :
    Confined Us body :=
  ⟨fun hrun => (h.changes hrun).mono hTs, h.depth⟩

theorem of_still {body : Action α} (h : ∀ s, (body s).2 = s) : Confined Ts body := by
  constructor
  · intro s r t hrun
    obtain rfl : s = t := by rw [← h s, hrun]
    exact .refl Ts s
  · intro s r t hrun _
    obtain rfl : s = t := by rw [← h s, hrun]
    rfl

theorem pure (a : α) : Confined Ts (Pure.pure a : Action α) := of_still fun _ => rfl

theorem refuse (e : Error) : Confined Ts (LiquidityNet.refuse e : Action α) :=
  of_still fun _ => rfl

theorem read (q : Query α) : Confined Ts (liftM q : Action α) := of_still fun _ => rfl

theorem check (x : Except Error α) : Confined Ts (liftM x : Action α) :=
  of_still fun s => by rw [check_run]

theorem compute (x : Except Fault α) : Confined Ts (liftM x : Action α) :=
  of_still fun s => by rw [compute_run]

theorem bind {x : Action α} {f : α → Action β} (hx : Confined Ts x)
    (hf : ∀ a, Confined Ts (f a)) : Confined Ts (x >>= f) := by
  constructor
  · intro s r t h
    rw [bind_run] at h
    rcases hrun : x s with ⟨e | a, u⟩
    · rw [hrun] at h
      cases h
      exact hx.changes hrun
    · rw [hrun] at h
      exact (hx.changes hrun).trans ((hf a).changes h)
  · intro s r t h hr
    rw [bind_run] at h
    rcases hrun : x s with ⟨e | a, u⟩
    · rw [hrun] at h
      cases h
      exact hx.depth hrun fun f hf => hr f (by cases hf; rfl)
    · rw [hrun] at h
      rw [(hf a).depth h hr]
      exact hx.depth hrun nofun

theorem readThen {q : Query α} {f : α → Action β} (hf : ∀ a, Confined Ts (f a)) :
    Confined Ts ((liftM q : Action α) >>= f) :=
  (read q).bind hf

theorem ite {c : Prop} [Decidable c] {x y : Action α} (hx : c → Confined Ts x)
    (hy : ¬ c → Confined Ts y) : Confined Ts (if c then x else y) := by
  split
  · exact hx ‹_›
  · exact hy ‹_›

theorem put [Recordable α] {k : String} {a : α} {T : Table} (hT : T ∈ Ts)
    (hk : Table.ofKey? k = some T) (ha : (toRecord a).FiledAt k) : Confined Ts (Ledger.put k a) := by
  constructor
  · intro s r t h
    cases h
    exact changes_assign hT hk fun _ hr => Option.some.inj hr ▸ ha
  · intro s r t h _
    cases h
    exact LayeredStore.depth_assign s.store k _

theorem erase {k : String} {T : Table} (hT : T ∈ Ts) (hk : Table.ofKey? k = some T) :
    Confined Ts (Ledger.erase k) := by
  constructor
  · intro s r t h
    cases h
    exact changes_assign (v := none) hT hk fun _ hr => nomatch hr
  · intro s r t h _
    cases h
    exact LayeredStore.depth_assign s.store k none

theorem emit (e : Event) : Confined Ts (Ledger.emit e) := by
  constructor
  · intro s r t h
    cases h
    exact changes_emit e
  · intro s r t h _
    cases h
    rfl

theorem attempt {body : Action α} (h : Confined Ts body) :
    Confined Ts (LiquidityNet.attempt body) := by
  constructor
  · intro s r t hrun
    unfold LiquidityNet.attempt at hrun
    rcases hbody : body s with ⟨(e | f) | a, u⟩ <;> rw [hbody] at hrun <;> cases hrun <;>
      exact h.changes hbody
  · intro s r t hrun hr
    unfold LiquidityNet.attempt at hrun
    rcases hbody : body s with ⟨(e | f) | a, u⟩ <;> rw [hbody] at hrun <;> cases hrun
    · exact h.depth hbody nofun
    · exact absurd rfl (hr f)
    · exact h.depth hbody nofun

end Action.Confined

/-! ## Checkpoints -/

def Ledger.checkpointed (s : Ledger) : Ledger := { s with store := s.store.checkpoint }

@[simp] theorem Ledger.get?_checkpointed (s : Ledger) (k : String) :
    s.checkpointed.get? k = s.get? k :=
  LayeredStore.get?_checkpoint s.store k

theorem Ledger.Filed.checkpointed {s : Ledger} (hs : s.Filed) : s.checkpointed.Filed :=
  fun k r hr => hs k r (s.get?_checkpointed k ▸ hr)

/-- A query to which a checkpoint makes no difference. -/
def Query.Steady (q : Query α) : Prop := ∀ s : Ledger, q s.checkpointed = q s

namespace Query.Steady

theorem pure (a : α) : Steady (Pure.pure a : Query α) := fun _ => rfl

theorem compute (x : Except Fault α) : Steady (liftM x : Query α) := fun s => by
  rw [compute_run, compute_run]

theorem bind {q : Query α} {f : α → Query β} (hq : q.Steady) (hf : ∀ a, (f a).Steady) :
    (q >>= f).Steady := by
  intro s
  rw [bind_run, bind_run, hq s]
  rcases q s with e | a
  · rfl
  · exact hf a s

theorem ite {c : Prop} [Decidable c] {x y : Query α} (hx : x.Steady) (hy : y.Steady) :
    Steady (if c then x else y) := by
  split
  · exact hx
  · exact hy

theorem fetch? [Recordable α] (key : String) :
    Steady (Ledger.fetch? key : Query (Option α)) :=
  fun s => fetch?_congr (get?_checkpointed s key)

theorem fetchD [Recordable α] (key : String) (d : α) : Steady (Ledger.fetchD key d) :=
  (fetch? key).bind fun _ => pure _

end Query.Steady

/-- The second ledger is the first one with its innermost checkpoint committed. -/
def Ledger.CommitsTo (u t : Ledger) : Prop :=
  u.store.commit? = some t.store ∧ t = { u with store := t.store }

theorem Ledger.CommitsTo.get? (h : u.CommitsTo t) (k : String) : t.get? k = u.get? k :=
  LayeredStore.get?_commit h.1 k

/-- A run in a checkpoint keeps what a successful body did, restores the ledger exactly when the
body is refused, and stops in the midst of a faulty one. -/
theorem transactionally_cases {body : Action α} (hbody : body.Confined Ts)
    {r : Except Failure α} (h : transactionally body s = (r, t)) :
    (∃ a u, r = .ok a ∧ body s.checkpointed = (.ok a, u) ∧ u.CommitsTo t) ∨
      (∃ e u, r = .error (.refused e) ∧ body s.checkpointed = (.error (.refused e), u) ∧ t = s) ∨
      ∃ f, r = .error (.fault f) ∧ body s.checkpointed = (.error (.fault f), t) := by
  have hdepth : ∀ {x u}, body s.checkpointed = (x, u) → (∀ f, x ≠ .error (.fault f)) →
      u.store.depth = s.store.depth + 1 := fun hrun hx => hbody.depth hrun hx
  unfold transactionally at h
  rcases hrun : body s.checkpointed with ⟨(e | f) | a, u⟩
  · rw [show body { s with store := s.store.checkpoint } = _ from hrun] at h
    have hchanges := hbody.changes hrun
    have hback : u.store.rollback? = some s.store :=
      hchanges.growth.rollback (hdepth hrun nofun)
    simp only [hback] at h
    cases h
    refine .inr (.inl ⟨e, u, rfl, rfl, ?_⟩)
    have hsettings : u.settings = s.settings := hchanges.settings
    have hheight : u.height = s.height := hchanges.height
    rw [hsettings, hheight]
  · rw [show body { s with store := s.store.checkpoint } = _ from hrun] at h
    cases h
    exact .inr (.inr ⟨f, rfl, rfl⟩)
  · rw [show body { s with store := s.store.checkpoint } = _ from hrun] at h
    obtain ⟨store, hcommit, _⟩ := (hbody.changes hrun).growth.commit (hdepth hrun nofun)
    simp only [hcommit] at h
    cases h
    exact .inl ⟨a, u, rfl, rfl, hcommit, rfl⟩

theorem transactionally_ok {body : Action α} (hbody : body.Confined Ts) {a : α}
    (h : transactionally body s = (.ok a, t)) :
    ∃ u, body s.checkpointed = (.ok a, u) ∧ u.CommitsTo t := by
  rcases transactionally_cases hbody h with ⟨b, u, hr, hrun⟩ | ⟨e, u, hr, _⟩ | ⟨f, hr, _⟩
  · cases hr
    exact ⟨u, hrun⟩
  · cases hr
  · cases hr

theorem transactionally_of_ok {body : Action α} (hbody : body.Confined Ts) {a : α}
    (h : body s.checkpointed = (.ok a, t)) :
    ∃ u, transactionally body s = (.ok a, u) ∧ t.CommitsTo u := by
  rcases hrun : transactionally body s with ⟨r, u⟩
  rcases transactionally_cases hbody hrun with ⟨b, v, rfl, hbody, hcommit⟩ | ⟨e, v, -, hbody, -⟩ |
    ⟨f, -, hbody⟩
  · cases h.symm.trans hbody
    exact ⟨u, rfl, hcommit⟩
  · cases h.symm.trans hbody
  · cases h.symm.trans hbody

/-- A refusal leaves the ledger as it was. -/
def Action.Restores (body : Action α) : Prop :=
  ∀ s e t, body s = (.error (.refused e), t) → t = s

namespace Action.Restores

theorem transactionally {body : Action α} (h : body.Confined Ts) :
    Restores (LiquidityNet.transactionally body) := by
  intro s e t hrun
  rcases transactionally_cases h hrun with ⟨a, u, hr, _⟩ | ⟨_, u, -, -, rfl⟩ | ⟨f, hr, _⟩
  · cases hr
  · rfl
  · cases hr

theorem readThen {q : Query α} {f : α → Action β} (hf : ∀ a, Restores (f a)) :
    Restores ((liftM q : Action α) >>= f) := by
  intro s e t hrun
  rw [read_bind_run] at hrun
  rcases hq : q s with _ | a <;> rw [hq] at hrun
  · cases hrun
    rfl
  · exact hf a s e t hrun

theorem checkThen {x : Except Error α} {f : α → Action β} (hf : ∀ a, Restores (f a)) :
    Restores ((liftM x : Action α) >>= f) := by
  intro s e t hrun
  rw [bind_run, check_run] at hrun
  rcases x with _ | a
  · cases hrun
    rfl
  · exact hf a s e t hrun

theorem thenPure {x : Action α} (hx : Restores x) (f : α → β) :
    Restores (x >>= fun a => Pure.pure (f a)) := by
  intro s e t hrun
  rcases bind_eq_error.1 hrun with hrun | ⟨a, u, -, hrun⟩
  · exact hx s e t hrun
  · cases hrun

end Action.Restores

namespace Action.Confined

theorem transactionally {body : Action α} (h : Confined Ts body) :
    Confined Ts (LiquidityNet.transactionally body) := by
  constructor
  · intro s r t hrun
    rcases transactionally_cases h hrun with ⟨a, u, -, hbody, hcommit⟩ | ⟨e, u, -, -, rfl⟩ |
      ⟨f, -, hbody⟩
    · have hchanges := h.changes hbody
      have hdepth := h.depth hbody nofun
      have ht := hcommit.2
      obtain ⟨store, hcommit', hgrowth, -, -⟩ := hchanges.growth.commit hdepth
      obtain rfl : store = t.store := Option.some.inj (hcommit'.symm.trans hcommit.1)
      refine ⟨?_, ?_, hgrowth, ?_⟩
      · rw [ht]
        exact hchanges.settings
      · rw [ht]
        exact hchanges.height
      · intro k
        rw [hcommit.get? k, ← get?_checkpointed s k]
        exact hchanges.records k
    · exact .refl Ts t
    · have hchanges := h.changes hbody
      refine ⟨hchanges.settings, hchanges.height, hchanges.growth.of_checkpoint, ?_⟩
      intro k
      rw [← get?_checkpointed s k]
      exact hchanges.records k
  · intro s r t hrun hr
    rcases transactionally_cases h hrun with ⟨a, u, -, hbody, hcommit⟩ | ⟨e, u, -, -, rfl⟩ |
      ⟨f, rfl, -⟩
    · have hdepth := h.depth hbody nofun
      obtain ⟨store, hcommit', -, hstore, -⟩ := (h.changes hbody).growth.commit hdepth
      obtain rfl : store = t.store := Option.some.inj (hcommit'.symm.trans hcommit.1)
      exact hstore
    · rfl
    · exact absurd rfl (hr f)

/-! ## Loops -/

theorem forM {f : α → Action Unit} {as : List α} (hf : ∀ a ∈ as, Confined Ts (f a)) :
    Confined Ts (as.forM f) := by
  induction as with
  | nil => exact pure ()
  | cons a as ih =>
    exact (hf a List.mem_cons_self).bind fun _ => ih fun b hb => hf b (List.mem_cons_of_mem a hb)

theorem mapM {f : α → Action β} {as : List α} (hf : ∀ a ∈ as, Confined Ts (f a)) :
    Confined Ts (as.mapM f) := by
  induction as with
  | nil => exact pure []
  | cons a as ih =>
    rw [List.mapM_cons]
    refine (hf a List.mem_cons_self).bind fun _ => .bind ?_ fun _ => pure _
    exact ih fun b hb => hf b (List.mem_cons_of_mem a hb)

theorem filterM {f : α → Action Bool} {as : List α} (hf : ∀ a, Confined Ts (f a)) :
    Confined Ts (as.filterM f) := by
  have haux : ∀ acc : List α, Confined Ts (as.filterAuxM f acc) := by
    induction as with
    | nil => exact fun acc => pure acc
    | cons a as ih => exact fun acc => (hf a).bind fun _ => ih _
  exact (haux []).bind fun _ => pure _

theorem foldlM {f : β → α → Action β} {as : List α} (hf : ∀ b a, Confined Ts (f b a)) (b : β) :
    Confined Ts (as.foldlM f b) := by
  induction as generalizing b with
  | nil => exact pure b
  | cons a as ih =>
    rw [List.foldlM_cons]
    exact (hf b a).bind fun c => ih c

end Action.Confined

end LiquidityNet
