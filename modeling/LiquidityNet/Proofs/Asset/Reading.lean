import LiquidityNet.Asset.Parse

/-!
# Assets read back from their texts

An asset comes back from its text if it has a symbol without the separator of the other kind; the
symbol then comes back in upper case. What has come back once comes back as it is.
-/

namespace LiquidityNet

namespace Text

/-- Only letters change, and they become letters that do not change. -/
theorem toUpper_cases (c : Char) : c.toUpper = c ∨ 'A' ≤ c.toUpper ∧ c.toUpper ≤ 'Z' := by
  unfold Char.toUpper
  split
  · rename_i h
    right
    simp only [Char.le_def, UInt32.le_iff_toNat_le, UInt32.toNat_add] at h ⊢
    have hshift : ('A'.val - 'a'.val).toNat = 4294967264 := by decide
    have hbounds : 'A'.val.toNat = 65 ∧ 'Z'.val.toNat = 90 ∧ 'a'.val.toNat = 97 ∧
        'z'.val.toNat = 122 := by decide
    omega
  · exact .inl rfl

theorem toUpper_toUpper (c : Char) : c.toUpper.toUpper = c.toUpper := by
  rcases toUpper_cases c with h | h
  · rw [h, h]
  · generalize c.toUpper = d at h
    unfold Char.toUpper
    rw [dif_neg]
    intro hd
    simp only [Char.le_def, UInt32.le_iff_toNat_le] at h hd
    have hbounds : 'Z'.val.toNat = 90 ∧ 'a'.val.toNat = 97 := by decide
    omega

theorem upper_upper (s : String) : upper (upper s) = upper s := by
  apply String.toList_injective
  rw [toList_upper, toList_upper, List.map_map]
  exact List.map_congr_left fun c _ => toUpper_toUpper c

/-- A character that stands before the letters is not made from another one. -/
theorem mem_of_mem_upper {s : String} {d : Char} (hd : d < 'A') (h : d ∈ (upper s).toList) :
    d ∈ s.toList := by
  rw [toList_upper] at h
  obtain ⟨c, hc, rfl⟩ := List.mem_map.1 h
  rcases toUpper_cases c with hcase | hcase
  · rwa [hcase]
  · exact absurd hcase.1 (Char.not_le.2 hd)

end Text

namespace Chain

theorem upper_name (c : Chain) : Text.upper c.name = c.name := by
  apply String.toList_injective
  rw [Text.toList_upper]
  cases c <;> decide

theorem parse_name (c : Chain) : parse c.name = .ok c := by
  unfold parse
  rw [upper_name, named?_name]

theorem separators_not_mem_name (c : Chain) :
    '.' ∉ c.name.toList ∧ '/' ∉ c.name.toList := by
  cases c <;> decide

end Chain

namespace Asset

/-- The separator that the asset's text does not have. -/
def otherSeparator (a : Asset) : Char := if a.synth then '.' else '/'

def IsReadable (a : Asset) : Prop := a.symbol ≠ "" ∧ a.otherSeparator ∉ a.symbol.toList

theorem otherSeparator_lt (a : Asset) : a.otherSeparator < 'A' := by
  unfold otherSeparator
  split <;> decide

theorem separator_not_mem_name (a : Asset) : a.separator ∉ a.chain.name.toList := by
  unfold separator
  split
  · exact a.chain.separators_not_mem_name.2
  · exact a.chain.separators_not_mem_name.1

theorem otherSeparator_not_mem_name (a : Asset) : a.otherSeparator ∉ a.chain.name.toList := by
  unfold otherSeparator
  split
  · exact a.chain.separators_not_mem_name.1
  · exact a.chain.separators_not_mem_name.2

theorem toList_text (a : Asset) :
    a.text.toList = a.chain.name.toList ++ a.separator :: a.symbol.toList :=
  String.toList_ofList

/-- The name of a chain ends where the first separator of either kind stands. -/
theorem takeWhile_text (a : Asset) :
    a.text.toList.takeWhile (fun c => c != '.' && c != '/') = a.chain.name.toList := by
  have hname : ∀ c ∈ a.chain.name.toList, (c != '.' && c != '/') = true := by
    intro c hc
    have hdot : c ≠ '.' := fun h => a.chain.separators_not_mem_name.1 (h ▸ hc)
    have hslash : c ≠ '/' := fun h => a.chain.separators_not_mem_name.2 (h ▸ hc)
    rw [bne_iff_ne.2 hdot, bne_iff_ne.2 hslash, Bool.and_self]
  have hstop : (a.separator != '.' && a.separator != '/') = false := by
    unfold separator
    split <;> decide
  rw [toList_text, List.takeWhile_append_of_pos hname, List.takeWhile_cons, hstop]
  exact List.append_nil _

theorem synth_of_separator {a b : Asset} (h : a.separator = b.separator) : a.synth = b.synth := by
  unfold separator at h
  cases ha : a.synth <;> cases hb : b.synth <;> rw [ha, hb] at h
  · exact absurd h (by decide)
  · exact absurd h (by decide)

/-- Assets of the same text are the same. -/
theorem text_inj {a b : Asset} (h : a.text = b.text) : a = b := by
  have hlist := congrArg String.toList h
  have hname : a.chain.name.toList = b.chain.name.toList := by
    rw [← takeWhile_text a, hlist, takeWhile_text b]
  have hchain : a.chain = b.chain := by
    have hnamed := congrArg Chain.named? (String.toList_injective hname)
    rwa [Chain.named?_name, Chain.named?_name, Option.some.injEq] at hnamed
  rw [toList_text, toList_text, hname] at hlist
  obtain ⟨hsep, hsymbol⟩ := List.cons.inj (List.append_cancel_left hlist)
  obtain ⟨chain, symbol, synth⟩ := a
  obtain ⟨chain', symbol', synth'⟩ := b
  obtain rfl : chain = chain' := hchain
  obtain rfl : symbol = symbol' := String.toList_injective hsymbol
  obtain rfl : synth = synth' := synth_of_separator hsep
  rfl

theorem parseAround_text (a : Asset) :
    parseAround a.separator a.synth a.text =
      if a.symbol = "" then .error (.malformedAsset a.text)
      else .ok { a with symbol := Text.upper a.symbol } := by
  have hname : ∀ c ∈ a.chain.name.toList, (c != a.separator) = true := fun c hc =>
    bne_iff_ne.2 fun h => a.separator_not_mem_name (h ▸ hc)
  have htake : a.text.toList.takeWhile (· != a.separator) = a.chain.name.toList := by
    rw [toList_text, List.takeWhile_append_of_pos hname]
    simp
  have hdrop : a.text.toList.dropWhile (· != a.separator) = a.separator :: a.symbol.toList := by
    rw [toList_text, List.dropWhile_append_of_pos hname]
    simp
  unfold parseAround
  simp only [htake, hdrop, String.ofList_toList, Chain.parse_name, List.drop_one, List.tail_cons]
  split
  · rename_i h
    rw [if_pos (String.toList_eq_nil_iff.1 h)]
  · rename_i h
    rw [if_neg fun h' => h (String.toList_eq_nil_iff.2 h'), String.ofList_toList]

theorem separator_mem_text (a : Asset) : a.separator ∈ a.text.toList := by
  rw [toList_text]
  exact List.mem_append_right _ List.mem_cons_self

theorem otherSeparator_mem_text {a : Asset} :
    a.otherSeparator ∈ a.text.toList ↔ a.otherSeparator ∈ a.symbol.toList := by
  have hne : a.otherSeparator ≠ a.separator := by
    unfold otherSeparator separator
    split <;> decide
  rw [toList_text, List.mem_append, List.mem_cons]
  constructor
  · rintro (h | h | h)
    · exact absurd h a.otherSeparator_not_mem_name
    · exact absurd h hne
    · exact h
  · exact fun h => .inr (.inr h)

theorem parse_text_of_not_mem {a : Asset} (h : a.otherSeparator ∉ a.symbol.toList) :
    parse a.text = parseAround a.separator a.synth a.text := by
  have hsep := a.separator_mem_text
  have hother := mt otherSeparator_mem_text.1 h
  obtain ⟨chain, symbol, synth⟩ := a
  cases synth
  · simp only [separator, otherSeparator, Bool.false_eq_true, if_false] at hsep hother ⊢
    unfold parse
    rw [List.contains_iff_mem.2 hsep, Bool.eq_false_iff.2 (mt List.contains_iff_mem.1 hother)]
  · simp only [separator, otherSeparator, if_true] at hsep hother ⊢
    unfold parse
    rw [List.contains_iff_mem.2 hsep, Bool.eq_false_iff.2 (mt List.contains_iff_mem.1 hother)]

theorem parse_text_of_mem {a : Asset} (h : a.otherSeparator ∈ a.symbol.toList) :
    parse a.text = .error (.malformedAsset a.text) := by
  have hsep := a.separator_mem_text
  have hother := otherSeparator_mem_text.2 h
  have hboth : '.' ∈ a.text.toList ∧ '/' ∈ a.text.toList := by
    unfold separator at hsep
    unfold otherSeparator at hother
    split at hsep <;> rename_i hsynth <;> simp only [hsynth] at hother
    · exact ⟨hother, hsep⟩
    · exact ⟨hsep, hother⟩
  have hrune : Text.upper a.text ≠ runeSymbol := by
    intro hrune
    have hdot : '.' ∈ (Text.upper a.text).toList := by
      rw [Text.toList_upper]
      exact List.mem_map.2 ⟨'.', hboth.1, by decide⟩
    rw [hrune] at hdot
    exact absurd hdot (by decide)
  unfold parse
  rw [List.contains_iff_mem.2 hboth.1, List.contains_iff_mem.2 hboth.2]
  exact if_neg hrune

theorem reread?_eq_some {a b : Asset} :
    a.reread? = some b ↔ a.IsReadable ∧ b = { a with symbol := Text.upper a.symbol } := by
  unfold reread? IsReadable
  by_cases h : a.otherSeparator ∈ a.symbol.toList
  · simp [parse_text_of_mem h, h]
  · rw [parse_text_of_not_mem h, parseAround_text]
    by_cases hs : a.symbol = "" <;> simp [hs, h, eq_comm]

theorem reread?_reread? {a b : Asset} (h : a.reread? = some b) : b.reread? = some b := by
  obtain ⟨⟨hs, hother⟩, rfl⟩ := reread?_eq_some.1 h
  refine reread?_eq_some.2 ⟨⟨?_, ?_⟩, ?_⟩
  · intro hupper
    have hlist := congrArg String.toList hupper
    rw [Text.toList_upper] at hlist
    exact hs (String.toList_eq_nil_iff.1 (List.map_eq_nil_iff.1 hlist))
  · exact fun hmem => hother (Text.mem_of_mem_upper a.otherSeparator_lt hmem)
  · simp only [Text.upper_upper]

theorem reread?_rune : rune.reread? = some rune := by
  refine reread?_eq_some.2 ⟨⟨by decide, by decide⟩, ?_⟩
  have hupper : Text.upper runeSymbol = runeSymbol := by
    apply String.toList_injective
    rw [Text.toList_upper]
    decide
  unfold rune
  rw [hupper]

/-- Read from some text. -/
def IsParsed (a : Asset) : Prop := ∃ s, parse s = .ok a

theorem IsParsed.of_reread? {a : Asset} (h : a.reread? = some a) : a.IsParsed := by
  unfold reread? at h
  rcases hparse : parse a.text with _ | b <;> rw [hparse] at h
  · cases h
  · cases h
    exact ⟨a.text, hparse⟩

theorem parseAround_reread? {sep : Char} {synth : Bool} {s : String} {a : Asset}
    (h : parseAround sep synth s = .ok a)
    (hother : (if synth then '.' else '/') ∉ s.toList) : a.reread? = some a := by
  unfold parseAround at h
  simp only at h
  split at h
  · cases h
  · split at h
    · cases h
    · rename_i chain _ hne
      cases h
      refine reread?_eq_some.2 ⟨⟨fun hempty => ?_, fun hmem => ?_⟩, ?_⟩
      · have hlist := congrArg String.toList hempty
        rw [Text.toList_upper, String.toList_ofList] at hlist
        exact hne (List.map_eq_nil_iff.1 hlist)
      · have hin := Text.mem_of_mem_upper (otherSeparator_lt _) hmem
        rw [String.toList_ofList] at hin
        exact hother (List.dropWhile_subset _ (List.mem_of_mem_drop hin))
      · rw [Text.upper_upper]

/-- What was read from a text comes back from its own. -/
theorem IsParsed.reread? {a : Asset} (h : a.IsParsed) : a.reread? = some a := by
  obtain ⟨s, h⟩ := h
  unfold parse at h
  split at h
  · rename_i hslash
    refine parseAround_reread? h fun hmem => ?_
    exact Bool.eq_false_iff.1 hslash (List.contains_iff_mem.2 hmem)
  · rename_i hdot _
    refine parseAround_reread? h fun hmem => ?_
    exact Bool.eq_false_iff.1 hdot (List.contains_iff_mem.2 hmem)
  · split at h
    · cases h
      exact reread?_rune
    · cases h

end Asset

end LiquidityNet
