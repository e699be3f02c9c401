import LiquidityNet.Proofs.Action.Equations
import LiquidityNet.Proofs.Asset.Reading

/-!
# The grammar of asset texts

The text of an asset can be read back as that asset exactly if the asset has a symbol, in which no
letter is small and the separator of the other kind does not stand. Reading only yields such assets,
so whatever was read, in whatever case, has a text that reads as the same.
-/

namespace LiquidityNet

namespace Text

theorem toUpper_eq_self_iff (c : Char) : c.toUpper = c ↔ ¬ ('a' ≤ c ∧ c ≤ 'z') := by
  unfold Char.toUpper
  split
  · rename_i hsmall
    refine ⟨fun h => ?_, fun h => absurd hsmall h⟩
    have hval := congrArg (fun d : Char => d.val.toNat) h
    have hshift : ('A'.val - 'a'.val).toNat = 4294967264 := by decide
    have hbounds : 'a'.val.toNat = 97 ∧ 'z'.val.toNat = 122 := by decide
    simp only [UInt32.le_iff_toNat_le] at hsmall
    simp only [UInt32.toNat_add] at hval
    omega
  · rename_i hother
    exact ⟨fun _ => hother, fun _ => rfl⟩

theorem upper_eq_self_iff (s : String) :
    upper s = s ↔ ∀ c ∈ s.toList, ¬ ('a' ≤ c ∧ c ≤ 'z') := by
  have hlist := List.map_inj_left (f := Char.toUpper) (g := id) (l := s.toList)
  rw [List.map_id] at hlist
  simp only [← String.toList_inj, toList_upper, hlist, id, toUpper_eq_self_iff]

end Text

namespace Asset

theorem isReadable_iff (a : Asset) :
    a.IsReadable ↔ a.symbol ≠ "" ∧ (a.synth = false → '/' ∉ a.symbol.toList) ∧
      (a.synth = true → '.' ∉ a.symbol.toList) := by
  unfold IsReadable otherSeparator
  cases a.synth <;> simp

theorem parse_text_eq_ok {a b : Asset} : parse a.text = .ok b ↔ a.reread? = some b := by
  unfold reread?
  cases parse a.text <;> simp

theorem reread?_eq_self_iff (a : Asset) :
    a.reread? = some a ↔ a.IsReadable ∧ Text.upper a.symbol = a.symbol := by
  rw [reread?_eq_some]
  refine and_congr_right fun _ => ⟨fun h => ?_, fun h => ?_⟩
  · exact (congrArg symbol h).symm
  · rw [h]

/-- The text of an asset reads as that asset exactly if the asset has a symbol without small letters
and without the separator of the other kind. A text that reads as an asset at all reads as the same
asset as that asset's own text. -/
theorem text_reads_back :
    (∀ a : Asset, parse a.text = .ok a ↔
      a.symbol ≠ "" ∧ (∀ c ∈ a.symbol.toList, ¬ ('a' ≤ c ∧ c ≤ 'z')) ∧
        (a.synth = false → '/' ∉ a.symbol.toList) ∧ (a.synth = true → '.' ∉ a.symbol.toList)) ∧
      ∀ s a, parse s = .ok a → parse a.text = parse s := by
  constructor
  · intro a
    rw [parse_text_eq_ok, reread?_eq_self_iff, isReadable_iff, Text.upper_eq_self_iff]
    constructor
    · rintro ⟨⟨hne, hslash, hdot⟩, hlarge⟩
      exact ⟨hne, hlarge, hslash, hdot⟩
    · rintro ⟨hne, hlarge, hslash, hdot⟩
      exact ⟨⟨hne, hslash, hdot⟩, hlarge⟩
  · intro s a h
    have hparsed : a.IsParsed := ⟨s, h⟩
    rw [h, parse_text_eq_ok]
    exact hparsed.reread?

/-- Separators may be repeated, and case is not kept. -/
theorem mixedCase_reads_back :
    parse "eth/usdc-0x/a" = .ok ⟨.eth, "USDC-0X/A", true⟩ ∧
      parse (text ⟨.eth, "USDC-0X/A", true⟩) = parse "eth/usdc-0x/a" := by
  have hread : parse "eth/usdc-0x/a" = .ok ⟨.eth, "USDC-0X/A", true⟩ :=
    eq_ok_of_toOption (by decide +kernel)
  exact ⟨hread, text_reads_back.2 _ _ hread⟩

end Asset

end LiquidityNet
