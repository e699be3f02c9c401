import LiquidityNet.Fixture
import LiquidityNet.Proofs.Validators.Roster
import Mathlib.Data.Finset.Max

/-!
# The version to join with

The join version is found among the versions that active nodes run. It nevertheless divides all
versions, run or not: those up to it have the support of two thirds of the active nodes, and no
later one has.
-/

namespace LiquidityNet

/-! ## The order of versions -/

namespace Version

variable {u v w : Version}

theorem le_def : v ≤ w ↔ v.major.val < w.major.val ∨ (v.major.val = w.major.val ∧
    (v.minor.val < w.minor.val ∨ (v.minor.val = w.minor.val ∧ v.patch.val ≤ w.patch.val))) := by
  rw [← Amount.ext_iff, ← Amount.ext_iff]
  rfl

protected theorem le_total (v w : Version) : v ≤ w ∨ w ≤ v := by
  rw [le_def, le_def]
  omega

protected theorem le_trans (huv : u ≤ v) (hvw : v ≤ w) : u ≤ w := by
  rw [le_def] at *
  omega

protected theorem le_antisymm (hvw : v ≤ w) (hwv : w ≤ v) : v = w := by
  rw [le_def] at hvw hwv
  rw [Version.mk.injEq, Amount.ext_iff, Amount.ext_iff, Amount.ext_iff]
  omega

instance : LinearOrder Version where
  le_refl v := (Version.le_total v v).elim id id
  le_trans _ _ _ := Version.le_trans
  le_antisymm _ _ := Version.le_antisymm
  le_total := Version.le_total
  lt_iff_le_not_ge v w := ⟨fun h => ⟨(Version.le_total v w).resolve_right h, h⟩, And.right⟩
  toDecidableLE := inferInstance

/-- No version is earlier than the very first one. -/
theorem default_le (v : Version) : default ≤ v := by
  rw [le_def]
  change 0 < _ ∨ (0 = _ ∧ (0 < _ ∨ (0 = _ ∧ 0 ≤ _)))
  omega

end Version

namespace Nodes

variable {nodes : List Node} {n : Node} {v w best : Version} {s : Ledger}

/-! ## Support -/

/-- Who supports a version supports every earlier one. -/
theorem isSupported_of_le (hvw : v ≤ w) (h : isSupported nodes w = true) :
    isSupported nodes v = true := by
  have hcount : nodes.countP (fun n => w ≤ n.version) ≤ nodes.countP (fun n => v ≤ n.version) := by
    apply List.countP_mono_left
    intro n _ hn
    exact decide_eq_true (hvw.trans (of_decide_eq_true hn))
  simp only [isSupported, isSuperMajority, decide_eq_true_iff] at *
  omega

theorem isSupported_default (hsome : nodes ≠ []) : isSupported nodes default = true := by
  have hcount : nodes.countP (fun n => default ≤ n.version) = nodes.length := by
    apply List.countP_eq_length.2
    intro n _
    exact decide_eq_true (Version.default_le n.version)
  have hlength := List.length_pos_iff.2 hsome
  simp only [isSupported, isSuperMajority, decide_eq_true_iff, hcount]
  omega

/-- Who supports a version that nobody runs supports the next one that is run. -/
theorem exists_run_of_isSupported (h : isSupported nodes w = true) :
    ∃ n ∈ nodes, w ≤ n.version ∧ isSupported nodes n.version = true := by
  have hcount : 0 < nodes.countP fun n => w ≤ n.version := by
    simp only [isSupported, isSuperMajority, decide_eq_true_iff] at h
    omega
  obtain ⟨n, hn, hleast⟩ := (nodes.filter fun n => w ≤ n.version).toFinset.exists_min_image
    (·.version) (by simpa [List.countP_pos_iff, Finset.filter_nonempty_iff] using hcount)
  simp only [List.mem_toFinset, List.mem_filter, decide_eq_true_iff, and_imp] at hn hleast
  obtain ⟨hmem, hwn⟩ := hn
  refine ⟨n, hmem, hwn, ?_⟩
  have hsame : nodes.countP (fun m => n.version ≤ m.version) =
      nodes.countP (fun m => w ≤ m.version) := by
    apply List.countP_congr
    intro m hm
    rw [decide_eq_true_iff, decide_eq_true_iff]
    exact ⟨hwn.trans, hleast m hm⟩
  rw [isSupported, hsame]
  exact h

/-! ## The latest supported version -/

/-- One version looked at: it replaces the best one so far if it is supported and not earlier. -/
def later (nodes : List Node) (best v : Version) : Version :=
  if isSupported nodes v && decide (best ≤ v) then v else best

theorem majorityVersion_eq (nodes : List Node) :
    majorityVersion nodes = (nodes.map (·.version)).foldl (later nodes) default := rfl

theorem le_later : best ≤ later nodes best v := by
  unfold later
  split
  · rename_i h
    exact of_decide_eq_true (Bool.and_eq_true_iff.1 h).2
  · exact le_refl best

theorem le_later_of_isSupported (h : isSupported nodes v = true) : v ≤ later nodes best v := by
  unfold later
  split
  · exact le_refl v
  · rename_i hkept
    rw [h, Bool.true_and, decide_eq_true_iff] at hkept
    exact (le_total v best).resolve_right hkept

theorem isSupported_later (h : isSupported nodes best = true) :
    isSupported nodes (later nodes best v) = true := by
  unfold later
  split
  · rename_i hreplaced
    exact (Bool.and_eq_true_iff.1 hreplaced).1
  · exact h

theorem le_foldl_later (vs : List Version) (best : Version) :
    best ≤ vs.foldl (later nodes) best := by
  induction vs generalizing best with
  | nil => exact le_refl best
  | cons v vs ih => exact le_later.trans (ih (later nodes best v))

theorem le_foldl_later_of_isSupported {vs : List Version} (hv : v ∈ vs)
    (h : isSupported nodes v = true) (best : Version) : v ≤ vs.foldl (later nodes) best := by
  induction vs generalizing best with
  | nil => cases hv
  | cons u vs ih =>
    rcases List.mem_cons.1 hv with rfl | hv
    · exact (le_later_of_isSupported h).trans (le_foldl_later vs _)
    · exact ih hv (later nodes best u)

theorem isSupported_foldl_later (vs : List Version) (h : isSupported nodes best = true) :
    isSupported nodes (vs.foldl (later nodes) best) = true := by
  induction vs generalizing best with
  | nil => exact h
  | cons v vs ih => exact ih (isSupported_later h)

/-- What two thirds of the nodes support are the versions up to the majority's. -/
theorem isSupported_iff (hsome : nodes ≠ []) :
    isSupported nodes w = true ↔ w ≤ majorityVersion nodes := by
  rw [majorityVersion_eq]
  constructor
  · intro h
    obtain ⟨n, hn, hwn, hsupported⟩ := exists_run_of_isSupported h
    exact hwn.trans
      (le_foldl_later_of_isSupported (List.mem_map_of_mem hn) hsupported default)
  · intro h
    exact isSupported_of_le h (isSupported_foldl_later _ (isSupported_default hsome))

/-- Two thirds of the active nodes run a version or a later one exactly for the versions up to the
join version. -/
theorem joinVersion_threshold (hactive : active s = .ok nodes) (hsome : nodes ≠ []) :
    ∃ least, joinVersion s = .ok least ∧
      ∀ w, isSuperMajority (nodes.countP fun n => w ≤ n.version) nodes.length = true ↔
        w ≤ least := by
  refine ⟨majorityVersion nodes, ?_, fun w => isSupported_iff hsome⟩
  unfold joinVersion
  rw [Query.bind_run, hactive]
  rfl

/-! ### Three of four nodes are enough, two are not -/

def running (name : String) (status : NodeStatus) (minor : Nat) : Node :=
  { Fixture.node name status 1 1 with version := ⟨1, .cap minor, 0⟩ }

def electors : List Node :=
  [running "alva" .active 3, running "bela" .active 3, running "cleo" .active 1,
    running "dora" .active 0]

def electorate : Ledger :=
  .ofNodes (.ofEnvironment .mocknet) (.clamp 10) (running "elin" .standby 3 :: electors)

theorem electorate_active : active electorate = .ok electors :=
  eq_ok_of_toOption (by decide +kernel)

/-- Nobody runs version 1.2.0. It lacks support as 1.3.0 does, and 1.1.0 is the join version. -/
theorem electorate_threshold : joinVersion electorate = .ok ⟨1, 1, 0⟩ ∧
    ∀ w, isSuperMajority (electors.countP fun n => w ≤ n.version) electors.length = true ↔
      w ≤ ⟨1, 1, 0⟩ := by
  obtain ⟨least, hleast, hthreshold⟩ :=
    joinVersion_threshold electorate_active (List.cons_ne_nil _ _)
  have hread : joinVersion electorate = .ok ⟨1, 1, 0⟩ := eq_ok_of_toOption (by decide +kernel)
  rw [hread] at hleast
  cases hleast
  exact ⟨hread, hthreshold⟩

end Nodes

end LiquidityNet
