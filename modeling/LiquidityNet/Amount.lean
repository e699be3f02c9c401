/-!
# Amounts and signed numbers

Coin amounts lie below `2 ^ 64`. Heights, slash points and governance values are signed and lie
between `-2 ^ 63` and `2 ^ 63`. Each operation is named for what it does at the edge of its range:
it caps, it stops at zero, it wraps, or it ends in a `Fault`.
-/

namespace LiquidityNet

inductive Fault where
  | addition
  | subtraction
  | division
  deriving DecidableEq, Repr

def Fault.text : Fault → String
  | .addition => "attempt to add with overflow"
  | .subtraction => "attempt to subtract with overflow"
  | .division => "attempt to divide by zero"

/-- A number of base units of some coin, or another count of that size. -/
@[ext] structure Amount where
  val : Nat
  isLt : val < 0x10000000000000000
  deriving DecidableEq

namespace Amount

instance : LE Amount := ⟨fun a b => a.val ≤ b.val⟩

instance : LT Amount := ⟨fun a b => a.val < b.val⟩

instance (a b : Amount) : Decidable (a ≤ b) := inferInstanceAs (Decidable (a.val ≤ b.val))

instance (a b : Amount) : Decidable (a < b) := inferInstanceAs (Decidable (a.val < b.val))

theorem le_def {a b : Amount} : a ≤ b ↔ a.val ≤ b.val := Iff.rfl

theorem lt_def {a b : Amount} : a < b ↔ a.val < b.val := Iff.rfl

def top : Amount := ⟨0x10000000000000000 - 1, by decide⟩

/-- The number itself, or the largest amount where it is larger. -/
def cap (n : Nat) : Amount := ⟨min n (0x10000000000000000 - 1), by omega⟩

/-- The number itself, or zero where it is no amount. -/
def orZero (n : Nat) : Amount :=
  if h : n < 0x10000000000000000 then ⟨n, h⟩ else ⟨0, by decide⟩

def ofNat? (n : Nat) : Option Amount :=
  if h : n < 0x10000000000000000 then some ⟨n, h⟩ else none

/-- The amount congruent to an integer modulo `2 ^ 64`. -/
def wrap (i : Int) : Amount := ⟨(i % 0x10000000000000000).toNat, by omega⟩

instance : Zero Amount := ⟨⟨0, by decide⟩⟩

instance : One Amount := ⟨⟨1, by decide⟩⟩

instance : Inhabited Amount := ⟨0⟩

@[simp] theorem val_zero : (0 : Amount).val = 0 := rfl

@[simp] theorem val_one : (1 : Amount).val = 1 := rfl

@[simp] theorem val_top : top.val = 0x10000000000000000 - 1 := rfl

@[simp] theorem val_cap (n : Nat) : (cap n).val = min n (0x10000000000000000 - 1) := rfl

@[simp] theorem cap_val (a : Amount) : cap a.val = a := by
  have := a.isLt
  ext
  simp only [val_cap]
  omega

theorem val_inj {a b : Amount} : a.val = b.val ↔ a = b :=
  ⟨Amount.ext, congrArg val⟩

/-- Sum capped at the largest amount. -/
def plus (a b : Amount) : Amount := cap (a.val + b.val)

/-- Difference, zero where the second amount is larger. -/
def minus (a b : Amount) : Amount := ⟨a.val - b.val, by have := a.isLt; omega⟩

def times (a b : Amount) : Amount := cap (a.val * b.val)

@[simp] theorem val_plus (a b : Amount) :
    (a.plus b).val = min (a.val + b.val) (0x10000000000000000 - 1) := rfl

@[simp] theorem val_minus (a b : Amount) : (a.minus b).val = a.val - b.val := rfl

/-- Exact sum; a fault where it is no amount. -/
def add (a b : Amount) : Except Fault Amount :=
  if h : a.val + b.val < 0x10000000000000000 then .ok ⟨a.val + b.val, h⟩ else .error .addition

/-- Exact difference; a fault where it is negative. -/
def sub (a b : Amount) : Except Fault Amount :=
  if b.val ≤ a.val then .ok ⟨a.val - b.val, by have := a.isLt; omega⟩ else .error .subtraction

def sum (xs : List Amount) : Except Fault Amount := xs.foldlM add 0

/-- The sum of a list as a natural number, which no bound holds back. -/
def total (xs : List Amount) : Nat := xs.foldr (fun a n => a.val + n) 0

@[simp] theorem total_nil : total [] = 0 := rfl

@[simp] theorem total_cons (a : Amount) (xs : List Amount) : total (a :: xs) = a.val + total xs :=
  rfl

def text (a : Amount) : String := toString a.val

instance : Min Amount := ⟨fun a b => if a ≤ b then a else b⟩

instance : Max Amount := ⟨fun a b => if a ≤ b then b else a⟩

@[simp] theorem val_min (a b : Amount) : (min a b).val = min a.val b.val := by
  change (if a ≤ b then a else b).val = _
  by_cases h : a ≤ b
  · rw [if_pos h, Nat.min_eq_left h]
  · rw [if_neg h, Nat.min_eq_right (Nat.le_of_not_le h)]

@[simp] theorem val_max (a b : Amount) : (max a b).val = max a.val b.val := by
  change (if a ≤ b then b else a).val = _
  by_cases h : a ≤ b
  · rw [if_pos h, Nat.max_eq_right h]
  · rw [if_neg h, Nat.max_eq_left (Nat.le_of_not_le h)]

theorem add_eq_ok_iff {a b c : Amount} : a.add b = .ok c ↔ a.val + b.val = c.val := by
  have := c.isLt
  unfold add
  split
  · simp only [Except.ok.injEq, ← val_inj]
  · simp only [reduceCtorEq, false_iff]
    omega

theorem sub_eq_ok_iff {a b c : Amount} : a.sub b = .ok c ↔ b.val + c.val = a.val := by
  unfold sub
  split
  · simp only [Except.ok.injEq, ← val_inj]
    omega
  · simp only [reduceCtorEq, false_iff]
    omega

end Amount

/-- A signed number: a block height, a count of slash points or a governance value. -/
@[ext] structure Signed where
  val : Int
  lower : -0x8000000000000000 ≤ val
  upper : val < 0x8000000000000000
  deriving DecidableEq

abbrev Height := Signed

/-- Numbers of 32 bits: places among the swaps of a transaction, and codes of refunds. -/
abbrev Word := Fin 0x100000000

namespace Signed

instance : LE Signed := ⟨fun a b => a.val ≤ b.val⟩

instance : LT Signed := ⟨fun a b => a.val < b.val⟩

instance (a b : Signed) : Decidable (a ≤ b) := inferInstanceAs (Decidable (a.val ≤ b.val))

instance (a b : Signed) : Decidable (a < b) := inferInstanceAs (Decidable (a.val < b.val))

theorem le_def {a b : Signed} : a ≤ b ↔ a.val ≤ b.val := Iff.rfl

theorem lt_def {a b : Signed} : a < b ↔ a.val < b.val := Iff.rfl

def clamp (i : Int) : Signed :=
  ⟨max (-0x8000000000000000) (min i (0x8000000000000000 - 1)), by omega, by omega⟩

def ofInt? (i : Int) : Option Signed :=
  if h : -0x8000000000000000 ≤ i ∧ i < 0x8000000000000000 then some ⟨i, h.1, h.2⟩ else none

instance : Zero Signed := ⟨⟨0, by decide, by decide⟩⟩

instance : One Signed := ⟨⟨1, by decide, by decide⟩⟩

instance : Inhabited Signed := ⟨0⟩

@[simp] theorem val_zero : (0 : Signed).val = 0 := rfl

@[simp] theorem val_one : (1 : Signed).val = 1 := rfl

@[simp] theorem val_clamp (i : Int) :
    (clamp i).val = max (-0x8000000000000000) (min i (0x8000000000000000 - 1)) := rfl

theorem val_inj {a b : Signed} : a.val = b.val ↔ a = b :=
  ⟨Signed.ext, congrArg val⟩

@[simp] theorem clamp_val (a : Signed) : clamp a.val = a := by
  have := a.lower
  have := a.upper
  ext
  simp only [val_clamp]
  omega

def plus (a b : Signed) : Signed := clamp (a.val + b.val)

def add (a b : Signed) : Except Fault Signed :=
  if h : -0x8000000000000000 ≤ a.val + b.val ∧ a.val + b.val < 0x8000000000000000 then
    .ok ⟨_, h.1, h.2⟩
  else .error .addition

def sub (a b : Signed) : Except Fault Signed :=
  if h : -0x8000000000000000 ≤ a.val - b.val ∧ a.val - b.val < 0x8000000000000000 then
    .ok ⟨_, h.1, h.2⟩
  else .error .subtraction

def text (a : Signed) : String := toString a.val

def positivePart (a : Signed) : Signed := if 0 ≤ a then a else 0

@[simp] theorem val_positivePart (a : Signed) : a.positivePart.val = max a.val 0 := by
  unfold positivePart
  by_cases h : (0 : Signed) ≤ a
  · rw [if_pos h]
    have := le_def.1 h
    simp only [val_zero] at this
    omega
  · rw [if_neg h]
    have : ¬ (0 : Int) ≤ a.val := h
    simp only [val_zero]
    omega

instance : Max Signed := ⟨fun a b => if a ≤ b then b else a⟩

@[simp] theorem val_max (a b : Signed) : (max a b).val = max a.val b.val := by
  change (if a ≤ b then b else a).val = _
  by_cases h : a ≤ b
  · rw [if_pos h]
    have := le_def.1 h
    omega
  · rw [if_neg h]
    have : ¬ a.val ≤ b.val := h
    omega

def interval (lo hi : Signed) : List Signed :=
  (List.range (hi.val - lo.val + 1).toNat).map fun k : Nat => clamp (lo.val + (k : Int))

theorem add_eq_ok_iff {a b c : Signed} : a.add b = .ok c ↔ a.val + b.val = c.val := by
  have := c.lower
  have := c.upper
  unfold add
  split
  · simp only [Except.ok.injEq, ← val_inj]
  · simp only [reduceCtorEq, false_iff]
    omega

theorem sub_eq_ok_iff {a b c : Signed} : a.sub b = .ok c ↔ a.val - b.val = c.val := by
  have := c.lower
  have := c.upper
  unfold sub
  split
  · simp only [Except.ok.injEq, ← val_inj]
  · simp only [reduceCtorEq, false_iff]
    omega

end Signed

end LiquidityNet
