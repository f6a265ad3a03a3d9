import YaraRules.Proofs.HexDrafts
import YaraRules.Proofs.HexReadings
import YaraRules.Proofs.Outcomes
import YaraRules.Proofs.ReadHexStrings

/-! Hex strings that are written and read back. Whether a hex string was built or read, its text leads to
a hex string with the same tree: the same bytes, jumps and alternatives, in the same order. -/

namespace YaraRules

open HexTree
open Lexer (Made stringWords)

/-- A text stands for a tree wherever it is the value of a string. -/
structure RoundTrips (text : String) (units : List HexTree) : Prop where
  /-- Behind an equal sign the lexer makes tokens of the units and goes on behind them, whatever follows. -/
  lexed : ∀ file (s : Lexer.State) rest, s.At .normal (Bytes.ofText text ++ rest) → s.last = some .assign →
    ∃ s' tokens, s'.At .normal rest ∧ List.Forall₂ Made (stringWords units) tokens ∧ Lexer.lexed file s =
      (Lexer.lexed file s').map (tokens ++ ·)
  /-- The grammar reads such tokens as a hex string with this tree, whatever follows. -/
  parsed : ∀ (s : Grammar.State) row rest, s.source.rest = row ++ rest →
    List.Forall₂ (Stands s.source.tokens) (stringWords units) row →
    ∃ hex s', Grammar.stringContent s = .ok (.hex hex, s') ∧ s'.source.rest = rest ∧ hex.trees s'.source.tokens = units
  /-- A definition that consists of a name and the text is read as such. -/
  defined : ∀ name, isStringIdentifier name = true → Grammar.ReadsHex name text units

private theorem roundTrips_of_sound {units : List HexTree} (filled : units ≠ []) (sound : ∀ unit ∈ units, unit.Sound) :
    RoundTrips (stringText units) units where
  lexed _ _ _ here assigned := Lexer.lexed_stringText filled sound here assigned
  parsed s row rest waiting stand := by
    obtain ⟨hex, wanted, read, _, same⟩ := Grammar.stringContent_run filled sound stand waiting
    exact ⟨hex, _, read, rfl, same⟩
  defined _ valid := Grammar.definition_readsHex valid filled sound

namespace HexDraft

variable {id : ChainId} {units : List HexDraft} {hex : Detached HexString}

/-- What was built says what its draft says, and can be written. -/
theorem build_sound (built : build id units = .ok hex) :
    hex.node.trees hex.tokens = treesAll units ∧ treesAll units ≠ [] ∧ ∀ tree ∈ treesAll units, tree.Sound := by
  have fine : faultOf? units = none := by
    have none : ¬ ∃ e, build id units = .error e := fun ⟨_, failed⟩ => nomatch built.symm.trans failed
    rw [build_fails, not_or] at none
    refine faultOf_none.mpr ⟨none.1, fun unit member => not_not.mp fun fault =>
      none.2 ⟨unit, member, (fault_iff unit).mp fault⟩⟩
  obtain ⟨other, built', same⟩ := build_bears fine id
  obtain rfl := Except.ok.inj (built.symm.trans built')
  obtain ⟨some, each⟩ := faultOf_none.mp fine
  obtain ⟨length, sound⟩ := treesAll_sound units each
  exact ⟨same, fun empty => some (List.length_eq_zero_iff.mp (length ▸ empty ▸ rfl)), sound⟩

end HexDraft

/-- Hex strings come back as they were. One that is built from a draft has the tree of the draft, and one in a
file that was read has the tree that its tokens have; either way its text leads to a hex string with that
tree. A draft cannot be built if and only if it has no units, or a jump in it is inverted or an alternation
lacks alternatives at any depth. -/
theorem hexStrings_round_trip : (∀ id units,
      (∀ hex, HexDraft.build id units = .ok hex →
        hex.node.trees hex.tokens = HexDraft.treesAll units ∧ RoundTrips (hex.node.text hex.tokens)
        (hex.node.trees hex.tokens)) ∧
      ((∃ e, HexDraft.build id units = .error e) ↔ units = [] ∨ ∃ unit ∈ units, unit.Wrong)) ∧
    ∀ file : RuleFile, file.Read → ∀ rule ∈ file.rules, ∀ string ∈ rule.strings.values, ∀ hex,
    string.content = .hex hex →
      RoundTrips (hex.text file.tokens) (hex.trees file.tokens) := by
  refine ⟨fun id units => ⟨fun hex built => ?_, HexDraft.build_fails id units⟩,
    fun file read rule member string listed hex same => ?_⟩
  · obtain ⟨trees, filled, sound⟩ := HexDraft.build_sound built
    rw [HexString.text_trees, trees]
    exact ⟨rfl, roundTrips_of_sound filled sound⟩
  · obtain ⟨filled, sound⟩ := read.hexed member listed same
    rw [HexString.text_trees]
    refine roundTrips_of_sound ?_ sound
    simpa [HexString.trees, HexUnit.treesAll_eq] using filled

/-- An alternation inside another one, and a bound that fits no signed number. -/
def nestedDraft : List HexDraft :=
  [.byte 0x4D, .alternation [[.anyByte], [.otherByte 0, .alternation [[.jumpBetween 2 4, .byte 1], [.highNibble 10]]]],
    .jumpFrom 18446744073709551615]

/-- A file with a hex string in which numbers are written in two bases. -/
def hexContent : Bytes :=
  Bytes.ofText "rule a \x7b strings: $s = \x7b 4d ( ?? | ~0? ( 01[0x2 - 10]02 | 03 ) ) [-] 00 \x7d condition: $s \x7d"

private theorem nested_written : yields (HexDraft.build 0 nestedDraft) (fun hex =>
    hex.node.text hex.tokens == "\x7b 4D ( ?? | ~00 ( [2-4] 01 | A? ) ) [18446744073709551615-] \x7d") = true := by
  decide +kernel

private theorem hexContent_read : yields (RuleFile.ofSource {} {} 0 hexContent) (fun file =>
    file.rules.any fun rule => rule.strings.values.any fun string =>
    match string.content with
    | .hex hex => hex.text file.tokens == "\x7b 4d ( ?? | ~0? ( 01 [0x2-10] 02 | 03 ) ) [-] 00 \x7d"
    | _ => false) = true := by
  decide +kernel

/-- The draft is built and read back, and so is the hex string in the file. A jump that is inverted two
alternations deep cannot be built. -/
theorem nested_round_trip : (∃ hex, HexDraft.build 0 nestedDraft = .ok hex ∧
      hex.node.text hex.tokens = "\x7b 4D ( ?? | ~00 ( [2-4] 01 | A? ) ) [18446744073709551615-] \x7d" ∧
      Grammar.ReadsHex "$a" (hex.node.text hex.tokens) (HexDraft.treesAll nestedDraft)) ∧
    (∃ e, HexDraft.build 0 [.alternation [[.anyByte], [.alternation [[.jumpBetween 4 2], [.anyByte]]]]] = .error e) ∧
    ∃ (file : RuleFile) (hex : HexString), RuleFile.ofSource {} {} 0 hexContent = .ok file ∧
      hex.text file.tokens = "\x7b 4d ( ?? | ~0? ( 01 [0x2-10] 02 | 03 ) ) [-] 00 \x7d" ∧
      Grammar.ReadsHex "$s" (hex.text file.tokens) (hex.trees file.tokens) := by
  refine ⟨?_, ?_, ?_⟩
  · obtain ⟨hex, built, written⟩ := yields_iff.mp nested_written
    obtain ⟨trees, back⟩ := (hexStrings_round_trip.1 0 nestedDraft).1 hex built
    exact ⟨hex, built, eq_of_beq written, trees ▸ back.defined "$a" (by decide +kernel)⟩
  · refine (hexStrings_round_trip.1 0 _).2.mpr (.inr ⟨_, List.mem_singleton_self _, ?_⟩)
    exact .inner (List.mem_cons_of_mem _ (List.mem_singleton_self _)) (List.mem_singleton_self _)
      (.inner (List.mem_cons_self ..) (List.mem_singleton_self _) (.inverted (by decide)))
  · obtain ⟨file, done, run⟩ := yields_iff.mp hexContent_read
    obtain ⟨rule, member, run⟩ := List.any_eq_true.mp run
    obtain ⟨string, among, written⟩ := List.any_eq_true.mp run
    split at written
    next hex same =>
      have back := hexStrings_round_trip.2 file (.ofSource done) rule member string among hex same
      exact ⟨file, hex, done, eq_of_beq written, back.defined "$s" (by decide +kernel)⟩
    next => cases written

end YaraRules
