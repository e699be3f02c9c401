import LiquidityNet.Proofs.Action.Invariance
import LiquidityNet.Proofs.Bank.Conservation
import LiquidityNet.Proofs.Ledger.Funds

/-!
# Accounts apart

An operation of the bank leaves every account that it does not name. The key of an account joins an
owner and an asset by a slash, so this needs the assets to be told apart: an asset is whole if its
text does not itself end in a slash and another asset.
-/

namespace LiquidityNet

open Ledger

variable {α β : Type} {k : String} {a b : Asset} {owner source target : Address} {s t : Ledger}
  {c : Coin}

theorem Ledger.balancesOf_rune (s : Ledger) (q : Address) : s.balancesOf .rune q = s.held q := by
  unfold balancesOf amountAt held
  split <;> simp_all

/-! ## Keys -/

namespace Asset

/-- No asset stands behind a slash within the text of the asset. -/
def IsWhole (a : Asset) : Prop :=
  ∀ (b : Asset) (before : List Char), a.text.toList ≠ before ++ '/' :: b.text.toList

theorem separator_cases (a : Asset) : a.separator = '.' ∨ a.separator = '/' := by
  unfold separator
  split
  · exact .inr rfl
  · exact .inl rfl

/-- The only slash is the separator of a synth, and what follows it has none of its own. -/
theorem isWhole_of_symbol (hdot : a.synth = true → '.' ∉ a.symbol.toList)
    (hslash : '/' ∉ a.symbol.toList) : a.IsWhole := by
  intro b before h
  rw [toList_text] at h
  obtain ⟨-, hsep, hsymbol⟩ :=
    (List.append_cons_inj_of_notMem a.chain.separators_not_mem_name.2 hslash).1 h
  have hsynth : a.synth = true := by
    by_contra hno
    simp [separator, hno] at hsep
  have hb := b.separator_mem_text
  rw [← hsymbol] at hb
  rcases b.separator_cases with hcase | hcase
  · exact hdot hsynth (hcase ▸ hb)
  · exact hslash (hcase ▸ hb)

theorem rune_isWhole : rune.IsWhole := isWhole_of_symbol nofun (by decide)

theorem ne_rune_of_synth (h : a.synth = true) : a ≠ rune := by
  rintro rfl
  cases h

end Asset

namespace Module

/-- The accounts of the modules. -/
def accounts : List Address := [.ofModule asgard, .ofModule bond, .ofModule reserve,
  .ofModule thorchain]

theorem slash_not_mem_text (h : owner ∈ accounts) : '/' ∉ owner.text.toList := by
  revert owner
  decide

end Module

namespace Key

theorem balance_inj_of_isWhole (hslash : '/' ∉ owner.text.toList) (ha : a.IsWhole)
    (h : balance owner a = balance target b) : owner = target ∧ a = b := by
  have hlist := congrArg String.toList h
  simp only [balance, String.toList_append, List.append_assoc] at hlist
  have hpair : owner.text.toList ++ '/' :: a.text.toList =
      target.text.toList ++ '/' :: b.text.toList := List.append_cancel_left hlist
  rcases List.append_eq_append_iff.1 hpair with ⟨rest, -, hrest⟩ | ⟨rest, howner, hrest⟩
  · cases rest with
    | nil =>
      obtain rfl := Asset.text_inj (String.toList_injective (List.cons.inj hrest).2)
      exact ⟨balance_inj h, rfl⟩
    | cons c rest => exact absurd (List.cons.inj hrest).2 (ha b rest)
  · cases rest with
    | nil =>
      obtain rfl := Asset.text_inj (String.toList_injective (List.cons.inj hrest).2)
      exact ⟨balance_inj h, rfl⟩
    | cons c rest =>
      obtain ⟨rfl, -⟩ := List.cons.inj hrest
      exact absurd (howner ▸ List.mem_append_right _ List.mem_cons_self) hslash

/-- A key that is neither of a module's account of an asset nor of its supply. -/
structure Apart (k : String) (a : Asset) : Prop where
  accounts : ∀ owner ∈ Module.accounts, k ≠ balance owner a
  supply : k ≠ supply a

namespace Apart

theorem of_person (h : owner ∉ Module.accounts) : Apart (balance owner a) a where
  accounts := fun _ hmodule hkey => h (balance_inj hkey ▸ hmodule)
  supply := balance_ne_supply owner a a

/-- The accounts of a whole asset are apart from those of any other owner or asset. -/
theorem of_isWhole (ha : a.IsWhole) (h : owner ∈ Module.accounts → a ≠ b) :
    Apart (balance owner b) a where
  accounts := by
    intro q hmodule hkey
    obtain ⟨rfl, hab⟩ := balance_inj_of_isWhole (Module.slash_not_mem_text hmodule) ha hkey.symm
    exact h hmodule hab
  supply := balance_ne_supply owner b a

theorem of_account (hb : b.IsWhole) (howner : owner ∈ Module.accounts) (h : b ≠ a) :
    Apart (balance owner b) a where
  accounts := fun _ _ hkey =>
    h (balance_inj_of_isWhole (Module.slash_not_mem_text howner) hb hkey).2
  supply := balance_ne_supply owner b a

theorem of_supply (h : b ≠ a) : Apart (Key.supply b) a where
  accounts := fun owner _ hkey => balance_ne_supply owner a b hkey.symm
  supply := fun hkey => h (supply_inj hkey)

end Apart

end Key

/-! ## What is left alone -/

/-- What stands under a key. -/
def Ledger.Shows (k : String) (r : Option Record) (s : Ledger) : Prop := s.get? k = r

/-- The record under a key stays as it is, whatever comes of the action. -/
def Action.Spares (k : String) (body : Action α) : Prop := ∀ r, body.Keeps (Shows k r)

namespace Action.Spares

theorem get?_eq {body : Action α} (h : body.Spares k) {r : Except Failure α}
    (hrun : body s = (r, t)) : t.get? k = s.get? k := by
  have ht := h (s.get? k) s r t rfl hrun
  cases r <;> exact ht

theorem amountAt_eq {body : Action α} (h : body.Spares k) {r : Except Failure α}
    (hrun : body s = (r, t)) : t.amountAt k = s.amountAt k :=
  amountAt_congr (h.get?_eq hrun)

theorem of_confined {Ts : List Table} {T : Table} {body : Action α} (h : body.Confined Ts)
    (hk : Table.ofKey? k = some T) (hT : T ∉ Ts) : body.Spares k :=
  fun _ => .of_confined h fun _ _ hchanges hs => (hchanges.get?_eq hk hT).trans hs

theorem pure (a : α) : Spares k (Pure.pure a : Action α) := fun _ => .pure fun _ hs => hs

theorem refuse (e : Error) : Spares k (LiquidityNet.refuse e : Action α) :=
  fun _ => .refuse fun _ hs => hs

theorem bind {x : Action β} {f : β → Action α} (hx : x.Spares k) (hf : ∀ b, (f b).Spares k) :
    (x >>= f).Spares k :=
  fun r => .bind (hx r) fun b => hf b r

theorem pastRead {q : Query β} {f : β → Action α} (hf : ∀ b, (f b).Spares k) :
    Spares k ((liftM q : Action β) >>= f) :=
  fun r => .pastRead (fun _ hs => hs) fun b => hf b r

theorem ite {c : Prop} [Decidable c] {x y : Action α} (hx : c → x.Spares k)
    (hy : ¬ c → y.Spares k) : Spares k (if c then x else y) :=
  fun r => .ite (fun hc => hx hc r) fun hc => hy hc r

theorem attempt {body : Action α} (h : body.Spares k) : (LiquidityNet.attempt body).Spares k :=
  fun r => Action.Keeps.attempt (h r)

theorem forM {f : β → Action Unit} {bs : List β} (hf : ∀ b ∈ bs, (f b).Spares k) :
    (bs.forM f).Spares k :=
  fun r => .forM fun b hb => hf b hb r

theorem emit (e : Event) : (Ledger.emit e).Spares k := by
  intro r
  have hconfined : Action.Confined [] (Ledger.emit e) := .emit e
  refine .of_confined hconfined fun s t hchanges hs => ?_
  rcases hchanges.records k with hk | ⟨⟨T, hT, -⟩, -⟩
  · exact hk.trans hs
  · exact absurd hT List.not_mem_nil

end Action.Spares

namespace Bank

variable {module module' : String}

theorem record_spares {q : String} (h : k ≠ q) (a : Amount) : (record q a).Spares k := by
  intro r s x t hs hrun
  rw [record_run] at hrun
  cases hrun
  exact (get?_withAmount s q a k).trans ((if_neg h).trans hs)

theorem transferCoin_spares (hsource : k ≠ Key.balance source c.asset)
    (htarget : k ≠ Key.balance target c.asset) : (transferCoin source target c).Spares k := by
  unfold transferCoin
  simp only [Action.refuse_bind]
  refine .pastRead fun held => .ite (fun _ => .refuse _) fun _ => ?_
  exact (record_spares hsource _).bind fun _ => .pastRead fun _ => record_spares htarget _

theorem transfer_spares {coins : List Coin} (hsource : ∀ c ∈ coins, k ≠ Key.balance source c.asset)
    (htarget : ∀ c ∈ coins, k ≠ Key.balance target c.asset) :
    (transfer source target coins).Spares k :=
  .forM fun c hc => transferCoin_spares (hsource c hc) (htarget c hc)

theorem mint_spares (hbalance : k ≠ Key.balance (.ofModule module) c.asset)
    (hsupply : k ≠ Key.supply c.asset) : (mint module c).Spares k := by
  refine .pastRead fun _ => .bind (record_spares hbalance _) fun _ => ?_
  exact .pastRead fun _ => record_spares hsupply _

theorem burn_spares (hbalance : k ≠ Key.balance (.ofModule module) c.asset)
    (hsupply : k ≠ Key.supply c.asset) : (burn module c).Spares k := by
  unfold burn
  simp only [Action.refuse_bind]
  refine .pastRead fun held => .ite (fun _ => .refuse _) fun _ => ?_
  exact (record_spares hbalance _).bind fun _ => .pastRead fun _ => record_spares hsupply _

theorem moveModule_spares {coins : List Coin} (hsource : .ofModule module ∈ Module.accounts)
    (htarget : .ofModule module' ∈ Module.accounts) (h : ∀ c ∈ coins, Key.Apart k c.asset) :
    (moveModule module module' coins).Spares k :=
  transfer_spares (fun c hc => (h c hc).accounts _ hsource) fun c hc => (h c hc).accounts _ htarget

/-! ## What is credited -/

theorem mint_credits (hs : s.ReadsAmounts) (h : mint module c s = (.ok (), t)) :
    t.balancesOf c.asset (.ofModule module) =
        min (s.balancesOf c.asset (.ofModule module) + c.amount.val) 0xffffffffffffffff ∧
      t.supplyOf c.asset = min (s.supplyOf c.asset + c.amount.val) 0xffffffffffffffff := by
  rw [mint_run hs] at h
  cases h
  constructor
  · rw [balancesOf_withSupply, balancesOf, amountAt_withAmount, if_pos rfl]
    rfl
  · rw [supplyOf_withSupply, if_pos rfl]
    exact congrArg (fun n => min (n + c.amount.val) _) (supplyOf_withBalance s _ _ c.asset)

theorem transferCoin_credits (hs : s.ReadsAmounts) (hne : source ≠ target)
    (h : transferCoin source target c s = (.ok (), t)) :
    t.balancesOf c.asset source + c.amount.val = s.balancesOf c.asset source ∧
      t.balancesOf c.asset target =
        min (s.balancesOf c.asset target + c.amount.val) 0xffffffffffffffff := by
  have hkey : Key.balance source c.asset ≠ Key.balance target c.asset := fun heq =>
    hne (Key.balance_inj heq)
  rw [transferCoin_run hs] at h
  dsimp only at h
  split at h
  · cases h
  rename_i hcovered
  cases h
  have hle : c.amount.val ≤ (s.amountAt (Key.balance source c.asset)).val := Nat.not_lt.1 hcovered
  constructor
  · rw [balancesOf, amountAt_withAmount, if_neg hkey, amountAt_withAmount, if_pos rfl]
    exact Nat.sub_add_cancel hle
  · rw [balancesOf, amountAt_withAmount, if_pos rfl, amountAt_withAmount, if_neg hkey.symm]
    rfl

/-- What a module covers it can burn. -/
theorem burn_covered (hs : s.ReadsAmounts)
    (hle : c.amount.val ≤ s.balancesOf c.asset (.ofModule module)) :
    ∃ t, burn module c s = (.ok (), t) ∧
      t.supplyOf c.asset = s.supplyOf c.asset - c.amount.val := by
  have hcovered : ¬ s.amountAt (Key.balance (.ofModule module) c.asset) < c.amount :=
    Nat.not_lt.2 hle
  refine ⟨_, (burn_run hs module c).trans (if_neg hcovered), ?_⟩
  rw [supplyOf_withSupply, if_pos rfl]
  exact congrArg (· - c.amount.val) (supplyOf_withBalance s _ _ c.asset)

end Bank

end LiquidityNet
