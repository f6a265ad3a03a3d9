import YaraRules.Proofs.MirroredFiles
import YaraRules.Proofs.Outcomes
import YaraRules.Proofs.PairedConditions
import YaraRules.Proofs.ReadCycles
import YaraRules.Proofs.ReadRuleForms
import YaraRules.Proofs.ReadTexts

/-! Conditions that are read again. Where the condition of a rule begins, its text is read as the
same tree: the tokens of the text are those that the condition was read from, but for where
they stand, and names and strings mean what they meant then. -/

namespace YaraRules

/-! ### Tokens as they are found -/

namespace Lexer

variable {file : Option String} {s s' : State} {token : Token} {bytes : Bytes} {kind : TokenKind} {length : Nat}
    {mode : Mode} {text : String}

/-- Tokens with a fixed text are written as it is. Line breaks may be written otherwise. -/
theorem taken_of_fixed (listed : (.token kind, some length) ∈ candidates mode bytes)
    (fixed : kind.fixedText? = some text) (code : kind ≠ .newLine) : bytes.take length = Bytes.ofText text := by
  cases mode with
  | normal =>
    rcases List.mem_append.mp listed with early | late
    · obtain ⟨entry, member, same⟩ := List.mem_map.mp early
      obtain ⟨rfl, taken⟩ : entry.2 = kind ∧ fixed? entry.1 bytes = some length := by simpa using same
      have known := List.all_eq_true.mp fixedTexts_written entry member
      simp only [Bool.and_eq_true, Option.all_eq_true, beq_iff_eq] at known
      rw [fixed_taken taken, known.2 text fixed]
    · have others : ((classes bytes).all fun candidate => match candidate.1 with
          | .token kind => kind.fixedText?.isNone || kind == .newLine
          | .blank => true) = true := rfl
      simpa [fixed, code] using List.all_eq_true.mp others _ late
  | hexPattern =>
    simp only [candidates, List.mem_cons, Prod.mk.injEq, Lexeme.token.injEq, List.not_mem_nil, or_false, reduceCtorEq,
      false_and, false_or] at listed
    rcases listed with ⟨rfl, _⟩ | ⟨rfl, taken⟩ | ⟨rfl, taken⟩ | ⟨rfl, taken⟩ | ⟨rfl, taken⟩ | ⟨rfl, taken⟩ | ⟨rfl, _⟩
      | ⟨rfl, _⟩ | ⟨rfl, _⟩
    all_goals cases fixed
    all_goals first | exact fixed_taken taken.symm | exact absurd rfl code
  | hexJump =>
    simp only [candidates, List.mem_cons, Prod.mk.injEq, Lexeme.token.injEq, List.not_mem_nil, or_false, reduceCtorEq,
      false_and, false_or] at listed
    rcases listed with ⟨rfl, taken⟩ | ⟨rfl, _⟩ | ⟨rfl, taken⟩ | ⟨rfl, _⟩
    all_goals cases fixed
    all_goals first | exact fixed_taken taken.symm | exact absurd rfl code

private theorem makeToken_fixed {location : Location} (fixed : kind.fixedText? = some text)
    (made : makeToken kind (Bytes.ofText text) location = .ok token) : token.literal.text = text := by
  unfold makeToken at made
  split at made
  case h_5 =>
    cases made
    rw [Text.readable_ofText]
    rfl
  all_goals cases fixed

private theorem found_fixed (done : step file s = .found token s') (fixed : token.kind.fixedText? = some text)
    (code : token.kind ≠ .newLine) : token.literal.text = text := by
  obtain ⟨mode, kind, length, found, _, role, ⟨location, made⟩, _⟩ := found_mode done
  have same : kind.fixedText? = some text ∧ kind ≠ .newLine := by
    rcases role with same | ⟨rfl, same⟩
    · exact ⟨same ▸ fixed, same ▸ code⟩
    · rw [same] at fixed
      exact ⟨fixed, by decide⟩
  rw [taken_of_fixed (lexeme_listed found) same.1 same.2] at made
  exact makeToken_fixed fixed made

private theorem found_free (done : step file s = .found token s') : Grammar.isAnchor token.kind = false := by
  obtain ⟨mode, kind, length, found, _, role, _⟩ := found_mode done
  have others : ((candidates mode s.rest).all fun candidate => match candidate.1 with
      | .token kind => !Grammar.isAnchor kind
      | .blank => true) = true := by cases mode <;> rfl
  rcases role with same | ⟨_, same⟩
  · rw [same]
    simpa using List.all_eq_true.mp others _ (lexeme_listed found)
  · rw [same]
    rfl

private theorem tokensFrom_found {fuel : Nat} {tokens : List Token} (done : tokensFrom file fuel s = .ok tokens) :
    ∀ token ∈ tokens, ∃ s s', step file s = .found token s' := by
  induction fuel generalizing s tokens with
  | zero =>
    cases done
    exact fun token member => absurd member List.not_mem_nil
  | succ fuel ih =>
    rcases tokensFrom_cases done with rfl | ⟨s', _, more⟩ | ⟨token, s', later, made, more, rfl⟩
    · exact fun token member => absurd member List.not_mem_nil
    · exact ih more
    · exact List.forall_mem_cons.mpr ⟨⟨s, s', made⟩, ih more⟩

end Lexer

namespace Grammar

open TokenStream (Plain)

variable {l : Ledger} {roles : List Role} {spare : List Handle} {s s' : State}

/-- Words are there as the lexer found them. -/
def AsFound (waiting : List (Option Token)) : Prop :=
  ∀ entry ∈ waiting, ∃ a, entry = some a ∧ a.kind.isTrivia = false ∧ ∃ file s s', Lexer.step file s = .found a s'

theorem AsFound.suffix {front back : List (Option Token)} (found : AsFound (front ++ back)) : AsFound back :=
  fun entry member => found entry (List.mem_append_right _ member)

private theorem sourceOf_found {id : ChainId} {path : Option String} {content : Bytes} {source : Source}
    (done : sourceOf id path content = .ok source) : AsFound (source.rest.map source.tokens.get?) := by
  intro entry member
  obtain ⟨h, waits, rfl⟩ := List.mem_map.mp member
  have taken := sourceOf_taken done
  have fresh := sourceOf_fresh done
  obtain ⟨a, stored, word⟩ := taken.words h waits
  refine ⟨a, ?_, word, path, ?_⟩
  · rw [TokenStream.get?_top _ ((fresh.chain h waits).trans fresh.named.symm)]
    exact (taken.sound.chain.get?_eq_some _ _).mpr stored
  · exact Lexer.tokensFrom_found (sourceOf_tokens done) a (List.mem_map.mpr ⟨_, stored, rfl⟩)

private theorem fresh_of_found {a : Token} (plain : Plain a) (raw : Raw a) (word : a.kind.isTrivia = false)
    (found : ∃ file s s', Lexer.step file s = .found a s') : Fresh a := by
  obtain ⟨_, _, _, found⟩ := found
  refine ⟨plain, Lexer.found_free found, word, fun text fixed => Lexer.found_fixed found fixed ?_, raw.sigil⟩
  intro same
  rw [same] at word
  cases word

private theorem trivia_of_word {kind : TokenKind} (word : Lexer.isWord kind = true) : kind.isTrivia = false := by
  revert word
  cases kind <;> decide

/-! ### Words behind a source -/

/-- New tokens stand behind those of a stream. -/
structure Laid (x y : TokenStream) (news : List Handle) (words : List Token) : Prop where
  sound : y.Sound
  id : y.chain.id = x.chain.id
  ids : y.ids = x.ids
  view : y.view = x.view ++ (news.zip words).map fun entry => (entry.1, entry.2, none)
  length : news.length = words.length

private theorem layWords_laid {words : List Token} :
    ∀ {x : TokenStream} {rest : List Handle}, x.Sound → (∀ a ∈ words, a.kind.isTrivia = false) →
    ∃ news, (layWords words (x, rest)).2 = news.reverse ++ rest ∧ Laid x (layWords words (x, rest)).1 news words := by
  induction words with
  | nil => exact fun sound _ => ⟨[], rfl, sound, rfl, rfl, (List.append_nil _).symm, rfl⟩
  | cons a words ih =>
    intro x rest sound code
    obtain ⟨sound', view, id, ids⟩ := sound.push a
    obtain ⟨news, waits, laid⟩ := @ih (x.push a).2 ((x.push a).1 :: rest) sound' fun b member =>
      code b (List.mem_cons_of_mem _ member)
    have first : layWords (a :: words) (x, rest) = layWords words ((x.push a).2, (x.push a).1 :: rest) := by
      show List.foldl _ ((x.push a).2, if a.kind.isTrivia then rest else (x.push a).1 :: rest) words = _
      rw [code a List.mem_cons_self]
      rfl
    rw [first]
    refine ⟨(x.push a).1 :: news,
      by simp [waits], laid.sound, laid.id.trans id, laid.ids.trans ids, ?_, by simp [laid.length]⟩
    simp [laid.view, view]

namespace Laid

variable {x y : TokenStream} {news : List Handle} {words : List Token} (laid : Laid x y news words)
include laid

theorem handles : y.view.map (·.1) = x.view.map (·.1) ++ news := by
  rw [laid.view, List.map_append, List.map_map]
  refine congrArg _ ?_
  exact (List.map_fst_zip (Nat.le_of_eq laid.length))

theorem nodup : (x.view.map (·.1) ++ news).Nodup := laid.handles ▸ laid.sound.handles_nodup

theorem chain {n : Handle} (new : n ∈ news) : n.chain = x.chain.id := by
  have listed : n ∈ y.view.map (·.1) := laid.handles ▸ List.mem_append_right _ new
  obtain ⟨piece, member, rfl⟩ := List.mem_map.mp listed
  exact (laid.sound.chain_of_view member).trans laid.id

theorem others (sound : x.Sound) (distinct : x.ids.Nodup) {h : Handle} (old : h ∉ news) : y.get? h = x.get? h := by
  refine Option.ext fun a => ?_
  rw [laid.sound.get?_view (laid.ids ▸ distinct), sound.get?_view distinct, laid.id, laid.view]
  constructor
  · rintro ⟨piece, member, found⟩
    rcases List.mem_append.mp member with before | new
    · exact ⟨piece, before, found⟩
    · obtain ⟨entry, listed, rfl⟩ := List.mem_map.mp new
      rcases found with ⟨rfl, _⟩ | ⟨_, sub, none, _⟩
      · exact absurd (List.of_mem_zip listed).1 old
      · cases none
  · rintro ⟨piece, member, found⟩
    exact ⟨piece, List.mem_append_left _ member, found⟩

/-- The stream has no token under the new handles yet. -/
theorem fresh (sound : x.Sound) (distinct : x.ids.Nodup) {n : Handle} (new : n ∈ news) : x.get? n = none := by
  by_contra found
  obtain ⟨a, stored⟩ := Option.ne_none_iff_exists'.mp found
  obtain ⟨piece, member, ⟨rfl, _⟩ | ⟨apart, _⟩⟩ := (sound.get?_view distinct).mp stored
  · exact List.disjoint_of_nodup_append laid.nodup (List.mem_map_of_mem member) new
  · exact apart (laid.chain new)

theorem get? (distinct : x.ids.Nodup) {n : Handle} {a : Token} (listed : (n, a) ∈ news.zip words) : y.get? n = some a :=
  (laid.sound.get?_view (laid.ids ▸ distinct)).mpr ⟨(n, a, none), by
    rw [laid.view]
    exact List.mem_append_right _ (List.mem_map.mpr ⟨(n, a), listed, rfl⟩), .inl ⟨rfl, rfl⟩⟩

end Laid

/-! ### The words of a condition and new ones -/

/-- The new token for one that is used again, or the token itself. -/
def anew (used news : List Handle) (h : Handle) : Handle := ((used.zip news).lookup h).getD h

private theorem map_anew : ∀ {used news : List Handle}, news.length = used.length → used.Nodup →
    used.map (anew used news) = news
  | [], [], _, _ => rfl
  | h :: used, n :: news, same, once => by
    obtain ⟨absent, once⟩ := List.nodup_cons.mp once
    have first : anew (h :: used) (n :: news) h = n := by
      rw [anew, List.zip_cons_cons, List.lookup_cons, BEq.rfl]
      rfl
    have skip : used.map (anew (h :: used) (n :: news)) = used.map (anew used news) := by
      refine List.map_congr_left fun k member => ?_
      have apart : (k == h) = false := beq_eq_false_iff_ne.mpr fun equal => absent (equal ▸ member)
      rw [anew, List.zip_cons_cons, List.lookup_cons, apart]
      rfl
    rw [List.map_cons, first, skip, map_anew (Nat.succ.inj same) once]

private theorem anew_of_not_mem {used news : List Handle} {h : Handle} (other : h ∉ used) : anew used news h = h := by
  have none : (used.zip news).lookup h = none := by
    refine List.lookup_eq_none_iff.mpr fun entry listed => ?_
    have apart : h ≠ entry.1 := fun same => other (same ▸ (List.of_mem_zip listed).1)
    simpa using apart
  rw [anew, none]
  rfl

private theorem anew_injective {used news : List Handle} (same : news.length = used.length) (once : used.Nodup)
    (fresh : news.Nodup) {h k : Handle} (first : h ∈ used ∨ h ∉ news) (second : k ∈ used ∨ k ∉ news)
    (equal : anew used news h = anew used news k) : h = k := by
  have whole := map_anew same once
  have lands {j : Handle} (member : j ∈ used) : anew used news j ∈ news := by
    have listed := List.mem_map_of_mem (f := anew used news) member
    rwa [whole] at listed
  by_cases one : h ∈ used <;> by_cases two : k ∈ used
  · exact List.inj_on_of_nodup_map (whole.symm ▸ fresh) one two equal
  · rw [anew_of_not_mem two] at equal
    exact absurd (equal ▸ lands one) (second.resolve_left two)
  · rw [anew_of_not_mem one] at equal
    exact absurd (equal.symm ▸ lands two) (first.resolve_left one)
  · rwa [anew_of_not_mem one, anew_of_not_mem two] at equal

/-- Tokens that are used again belong to new ones, and all others to themselves. -/
def Pairing.anew (x : TokenStream) {used news : List Handle} (same : news.length = used.length) (once : used.Nodup)
    (fresh : news.Nodup) :
    Pairing where
  partner := Grammar.anew used news
  paired h := h ∈ used ∨ h ∉ news
  injective := anew_injective same once fresh
  lexed h := (x.get? h).getD default
  word := x.text

/-- The condition of a rule is about to be read. -/
structure Begun (l : Ledger) (roles : List Role) (s : State) : Prop where
  link : Linking l roles [] s
  unnamed : s.Unnamed
  keyed : Keyed s
  modules : ∀ i ∈ s.imports, Import.Named i
  found : s.Ahead AsFound

namespace Begun

variable (begun : Begun l roles s) {h : Handle}
include begun

/-- What is still to be read is as the lexer found it. -/
theorem unread (waits : h ∈ s.source.rest) :
    ∃ a, s.source.tokens.get? h = some a ∧ Fresh a ∧ ∃ file s s', Lexer.step file s = .found a s' := by
  obtain ⟨a, stored, word, found⟩ := begun.found _ (List.mem_map_of_mem waits)
  obtain ⟨b, held, plain⟩ := (begun.link.loose h waits).plain
  obtain rfl : a = b := Option.some.inj (stored.symm.trans held)
  exact ⟨a, stored, fresh_of_found plain (begun.unnamed h waits a stored) word found, found⟩

/-- Names of rules and strings are not to be read any more. -/
theorem anchored {role : Role} (member : role ∈ roles) (names : (∃ text, role = .ruleName h text) ∨
    role = .stringName h) : h ∉ s.source.rest ∧ Anchored s.source.tokens h := by
  obtain ⟨apart, a, stored, suits⟩ := begun.link.placed role member
  rcases names with ⟨text, rfl⟩ | rfl
  · exact ⟨apart, a, stored, by rw [suits.1]; rfl, suits.2.1⟩
  · exact ⟨apart, a, stored, by rw [suits.1]; rfl, suits.2⟩

theorem targets {a : Token} {target : Handle} (stored : s.source.tokens.get? h = some a)
    (points : a.literal.aliasTarget? = some target) : target ∉ s.source.rest ∧ Anchored s.source.tokens target := by
  rcases begun.link.aliases h a target stored points with ⟨_, text, named⟩ | ⟨_, named⟩
  · exact begun.anchored named (.inl ⟨text, rfl⟩)
  · exact begun.anchored named (.inr rfl)

/-- Names of rules lead to tokens that were read, of this source or of one around it. -/
theorem named {entry : String × Handle} (member : entry ∈ s.ruleNames) :
    entry.2 ∉ s.source.rest ∧ (entry.2.chain ∉ s.source.tokens.ids ∨ Anchored s.source.tokens entry.2 ∧
    s.source.tokens.text entry.2 = entry.1) := by
  rw [begun.link.rules] at member
  rcases begun.link.named entry member with before | here
  · have apart : entry.2.chain ∉ s.source.tokens.ids := fun inside =>
      Nat.not_lt.mpr (begun.link.ids _ inside).1 (begun.link.older entry before)
    refine ⟨fun waits => apart ?_, .inl apart⟩
    rw [(begun.link.loose _ waits).own]
    exact TokenStream.id_mem_ids _
  · obtain ⟨apart, anchored⟩ := begun.anchored here (.inl ⟨_, rfl⟩)
    obtain ⟨_, a, stored, kind, plain, text⟩ := begun.link.placed _ here
    have stored : s.source.tokens.get? entry.2 = some a := stored
    refine ⟨apart, .inr ⟨anchored, ?_⟩⟩
    rw [TokenStream.text_eq _ stored, textOf_bare _ plain (by rw [kind]; rfl), text]

/-- Names of strings lead to their definitions, which were read. -/
theorem defined {name : String} {string : StringDefinition} (found : s.strings.get? name = some string) :
    string.id ∉ s.source.rest ∧ Anchored s.source.tokens string.id ∧ s.source.tokens.text string.id = name := by
  have listed := begun.keyed.indexed.get?_mem found
  have known : string ∈ l.strings.values := begun.link.strings ▸ List.mem_map_of_mem (f := (·.2)) listed
  obtain ⟨apart, anchored⟩ := begun.anchored (begun.link.known string known) (.inr rfl)
  exact ⟨apart, anchored, begun.keyed.keyed _ listed⟩

section

variable {used news rest given : List Handle} {words : List Token} {y : TokenStream} (front : s.source.rest = used ++
  rest)
  (laid : Laid s.source.tokens y news words)
  (resemble : List.Forall₂ (fun h a => a.kind = ((s.source.tokens.get? h).getD default).kind ∧ a.literal =
    ((s.source.tokens.get? h).getD default).literal) used words)
  (same : news.length = used.length) (once : used.Nodup) (fresh : news.Nodup)
include front laid same once

section

include resemble

/-- A word that is used again and the new one are alike. -/
theorem renewed (member : h ∈ used) : ∃ a b, s.source.tokens.get? h = some a ∧ y.get? (anew used news h) = some b ∧
    Fresh a ∧ b.kind = a.kind ∧ b.literal = a.literal := by
  obtain ⟨a, stored, new, _⟩ := begun.unread (front ▸ List.mem_append_left _ member)
  obtain ⟨i, inside, rfl⟩ := List.getElem_of_mem member
  have small : i < words.length := resemble.length_eq ▸ inside
  have small' : i < news.length := laid.length.symm ▸ small
  obtain ⟨kind, literal⟩ := resemble.get inside small
  have partner : anew used news used[i] = news[i] := by
    have whole := congrArg (·[i]?) (map_anew same once)
    simpa [inside, small'] using whole
  refine ⟨a, words[i], stored, ?_, new, ?_, ?_⟩
  · rw [partner]
    exact laid.get? begun.link.distinct (List.mem_iff_getElem.mpr ⟨i, by simp [small, small'], by simp⟩)
  · simpa [stored] using kind
  · simpa [stored] using literal

end

theorem kept {k : Handle} {a : Token} (stored : s.source.tokens.get? k = some a) (read : k ∉ s.source.rest) :
    (Pairing.anew s.source.tokens same once fresh).Shares k := by
  have old : k ∉ news := fun new => by simp [laid.fresh begun.link.sound begun.link.distinct new] at stored
  exact ⟨.inr old, anew_of_not_mem fun again => read (front ▸ List.mem_append_left _ again)⟩

include resemble

theorem twins : Twins (.anew s.source.tokens same once fresh) s.source.tokens y := by
  have others {h : Handle} (old : h ∉ news) : y.get? h = s.source.tokens.get? h :=
    laid.others begun.link.sound begun.link.distinct old
  have shares {a : Token} {target : Handle} {h : Handle} (stored : s.source.tokens.get? h = some a)
    (points : a.literal.aliasTarget? = some target) :
      (Pairing.anew s.source.tokens same once fresh).Shares target ∧ Anchored s.source.tokens target := by
    obtain ⟨read, b, found, anchor⟩ := begun.targets stored points
    exact ⟨begun.kept front laid same once fresh found read, b, found, anchor⟩
  refine ⟨⟨begun.link.sound, begun.link.distinct⟩, ⟨laid.sound, laid.ids ▸ begun.link.distinct⟩, fun h paired =>
    ?_, fun h a _ stored => ?_, fun h a target stored points => ?_, fun k b target stored points => ?_⟩
  · by_cases again : h ∈ used
    · obtain ⟨a, b, stored, found, new, kind, literal⟩ := begun.renewed front laid resemble same once again
      show Option.Rel _ (s.source.tokens.get? h) (y.get? (anew used news h))
      rw [stored, found]
      exact .some ⟨kind, literal.trans (Literal.redirect_plain new.plain).symm⟩
    · have partner : (Pairing.anew s.source.tokens same once fresh).partner h = h := anew_of_not_mem again
      rw [partner, others (paired.resolve_left again)]
      cases stored : s.source.tokens.get? h with
      | none => exact .none
      | some a =>
        exact .some ⟨rfl, (Literal.redirect_same fun target points => (shares stored points).1.2).symm⟩
  · exact (TokenStream.text_eq _ stored).symm
  · exact ⟨(shares stored points).1.1, (shares stored points).2⟩
  · by_cases new : k ∈ news
    · obtain ⟨h, again, rfl⟩ := List.mem_map.mp ((map_anew same once).symm ▸ new)
      obtain ⟨a, b', _, found, plain, _, literal⟩ := begun.renewed front laid resemble same once again
      obtain rfl : b = b' := Option.some.inj (stored.symm.trans found)
      have own : a.literal.aliasTarget? = none := plain.plain
      simp [literal, own] at points
    · rw [others new] at stored
      obtain ⟨⟨paired, itself⟩, anchored⟩ := shares stored points
      exact ⟨target, itself.symm, paired, anchored⟩

/-- The condition can be read from the new words as well. -/
theorem abreast (aligned : Aligned (.anew s.source.tokens same once fresh) s.source.rest given) :
    Abreast (.anew s.source.tokens same once fresh) s
      { s with source := { s.source with tokens := y, rest := given } } where
  settings := rfl
  imports := rfl
  modules := begun.modules
  ruleNames := rfl
  named entry member := by
    obtain ⟨read, outer | ⟨⟨a, stored, anchor⟩, text⟩⟩ := begun.named member
    · have old : entry.2 ∉ news := fun new => outer (laid.chain new ▸ TokenStream.id_mem_ids _)
      refine ⟨⟨.inr old, anew_of_not_mem fun again => read (front ▸ List.mem_append_left _ again)⟩, fun a stored => ?_⟩
      exact absurd (TokenStream.mem_ids_of_get? stored) outer
    · exact ⟨begun.kept front laid same once fresh stored read, fun _ _ => ⟨⟨a, stored, anchor⟩, text⟩⟩
  strings := rfl
  defined name string found := by
    obtain ⟨read, ⟨a, stored, anchor⟩, text⟩ := begun.defined found
    exact ⟨begun.kept front laid same once fresh stored read, ⟨a, stored, anchor⟩, text⟩
  scopes := rfl
  stringLoops := rfl
  tokens := begun.twins front laid resemble same once fresh
  rest := aligned
  unread h waits := by
    obtain ⟨a, stored, new, _⟩ := begun.unread waits
    have lexed : (Pairing.anew s.source.tokens same once fresh).lexed h = a := by simp [Pairing.anew, stored]
    rw [lexed]
    exact ⟨stored, new⟩
  nodup := begun.link.unread_nodup

end

end Begun

/-! ### The text of a condition -/

/-- The state where words are to be read in place of what is left. -/
def State.before (s : State) (words : List Token) : State :=
  { s with source := { s.source with
      tokens := (layWords words (s.source.tokens, [])).1
      rest := (layWords words (s.source.tokens, [])).2.reverse } }

/-- Reads a text as a condition, where one could be read. -/
def readCondition (s : State) (text : String) : Except ParseError (Expr × State) := do
  condition.run (s.before (← Lexer.tokens s.source.path (Bytes.ofText text)))

private theorem readCondition_eq {text : String} {words : List Token}
    (found : Lexer.tokens s.source.path (Bytes.ofText text) = .ok words) : readCondition s text =
    condition.run (s.before words) := by
  rw [readCondition, found]
  rfl

theorem Aligned.self {c : Pairing} : ∀ {rest : List Handle}, (∀ h ∈ rest, c.Shares h) → Aligned c rest rest
  | [], _ => .nil
  | h :: rest, shared => by
    obtain ⟨⟨paired, itself⟩, shared⟩ := List.forall_mem_cons.mp shared
    have aligned := Aligned.cons paired (Aligned.self shared)
    rwa [itself] at aligned

private theorem Aligned.upTo {c : Pairing} {rest : List Handle}
    (ends : ∀ h ∈ rest.head?, (c.lexed h).kind = .closeBrace) :
    ∀ {used : List Handle}, (∀ h ∈ used, c.paired h) → Aligned c (used ++ rest) (used.map c.partner)
  | [], _ => by
    cases rest with
    | nil => exact .nil
    | cons h rest => exact .cut (ends h rfl)
  | h :: used, paired => by
    obtain ⟨first, paired⟩ := List.forall_mem_cons.mp paired
    exact .cons first (Aligned.upTo ends paired)

private theorem Twins.text_partner {c : Pairing} {x y : TokenStream} {h : Handle} (twins : Twins c x y)
    (paired : c.paired h) : y.text (c.partner h) = x.text h := by
  cases stored : x.get? h with
  | none => simp [TokenStream.text, stored, twins.get?_none paired stored]
  | some a =>
    obtain ⟨mine, theirs⟩ := twins.text paired stored
    rw [theirs, mine]

/-- No token is used again. -/
def Pairing.alone (x : TokenStream) : Pairing := @Pairing.anew x [] [] rfl .nil .nil

private theorem Pairing.alone_shares (x : TokenStream) (h : Handle) : (Pairing.alone x).Shares h :=
  ⟨.inr List.not_mem_nil, rfl⟩

/-- Tokens that spell a condition are words as the lexer found them. -/
theorem Begun.attested (begun : Begun l roles s) {used : List Handle} {e : Expr} (waits : used ⊆ s.source.rest)
    (spells : Spells (.alone s.source.tokens) used e)
    (clear : ∀ h ∈ e.handles, Lexer.onlyBackslashes (s.source.tokens.text h) = false) :
    ∀ h ∈ used, Attested ((Pairing.alone s.source.tokens).lexed h) ∧
      (Pairing.alone s.source.tokens).word h = shown ((Pairing.alone s.source.tokens).lexed h) := by
  intro h member
  obtain ⟨a, stored, new, found⟩ := begun.unread (waits member)
  have lexed : (Pairing.alone s.source.tokens).lexed h = a := by simp [Pairing.alone, Pairing.anew, stored]
  have written : s.source.tokens.text h = shown a := text_shown stored new.plain
  rw [lexed]
  refine ⟨⟨found, fun kind => ?_⟩, written⟩
  rcases spells.handles.2 h member with inside | comma
  · exact written ▸ clear h inside
  · rw [lexed, kind] at comma
    cases comma

section

variable {e : Expr} (begun : Begun l roles s) (run : condition.run s = .ok (e, s'))
include begun run

/-- What was read for a condition makes up its text. -/
theorem Begun.spelled : ∃ used, s.source.rest = used ++ s'.source.rest ∧ Spells (.alone s.source.tokens) used e := by
  have laid : Laid s.source.tokens s.source.tokens [] [] := ⟨begun.link.sound, rfl, rfl, (List.append_nil _).symm, rfl⟩
  have abreast := begun.abreast (List.nil_append _).symm laid .nil rfl .nil .nil (.self fun h _ =>
    Pairing.alone_shares _ h)
  obtain ⟨_, _, _, _, used, advanced, spells⟩ := abreast.condition e s' run
  exact ⟨used, advanced.took, spells⟩

private theorem Begun.reread (ends : ∀ h ∈ s'.source.rest.head?,
    (s.source.tokens.get? h).map (·.kind) = some .closeBrace)
    (clear : ∀ h ∈ e.handles, Lexer.onlyBackslashes (s.source.tokens.text h) = false) :
    ∃ f t, readCondition s (e.text s.source.tokens) = .ok (e.mapHandles f, t) ∧ t.source.rest = [] ∧
      ∀ h ∈ e.handles, t.source.tokens.text (f h) = s'.source.tokens.text h := by
  obtain ⟨used, front, spells⟩ := begun.spelled run
  have waits : used ⊆ s.source.rest := front ▸ List.subset_append_left _ _
  have once : used.Nodup := (List.nodup_append.mp (front ▸ begun.link.unread_nodup)).1
  -- the lexer finds the words of the tokens in the text
  obtain ⟨_, _, spelled, _⟩ := spells.spelled
  have lexing := (spelled.spaced.lexed spelled.words (begun.attested waits spells clear) s.source.path).2
  obtain ⟨words, found, resemble⟩ := lexing { rest := Bytes.ofText (e.text s.source.tokens) } ⟨rfl, rfl⟩
  have code : ∀ a ∈ words, a.kind.isTrivia = false := by
    intro a member
    obtain ⟨i, inside, rfl⟩ := List.getElem_of_mem member
    have same := (resemble.get (resemble.length_eq ▸ inside) inside).1
    exact trivia_of_word (same ▸ spelled.words _ (List.get_mem ..))
  obtain ⟨news, waiting, laid⟩ := @layWords_laid words s.source.tokens [] begun.link.sound code
  have same : news.length = used.length := laid.length.trans resemble.length_eq.symm
  have fresh : news.Nodup := (List.nodup_append.mp laid.nodup).2.1
  -- they are read as the tokens were
  have aligned : Aligned (.anew s.source.tokens same once fresh) s.source.rest news := by
    have closes (h : Handle) (head : h ∈ s'.source.rest.head?) :
        ((s.source.tokens.get? h).getD default).kind = .closeBrace := by
      obtain ⟨a, stored, brace⟩ := Option.map_eq_some_iff.mp (ends h head)
      rwa [stored]
    have upTo := @Aligned.upTo (.anew s.source.tokens same once fresh) s'.source.rest closes used
      fun h member => .inl member
    rwa [← front, show used.map (Pairing.anew s.source.tokens same once fresh).partner = news from map_anew same once]
      at upTo
  have abreast := begun.abreast front laid resemble same once fresh aligned
  obtain ⟨_, t, run', rfl, used', advanced, spells'⟩ := abreast.condition e s' run
  obtain rfl : used' = used := List.append_cancel_right (advanced.took.symm.trans front)
  refine ⟨anew used' news, t, ?_, ?_, fun h inside => ?_⟩
  · rw [readCondition_eq found, State.before, waiting, List.append_nil, List.reverse_reverse]
    exact run'
  · have whole : news = used'.map (anew used' news) ++ t.source.rest := advanced.took'
    rw [map_anew same once] at whole
    simpa using whole
  · exact advanced.abreast.tokens.text_partner (advanced.paired h (spells'.handles.1 inside))

end

/-! ### Rules -/

private theorem expect_head {kind : TokenKind} {h : Handle} (done : expect kind s = .ok (h, s')) :
    ∀ k ∈ s.source.rest.head?, (s.source.tokens.get? k).map (·.kind) = some kind := by
  obtain ⟨_, _, looked, run⟩ := bind_done done
  cases looked
  split_ifs at run with seen
  · intro k head
    have same : s.source.rest[0]? = some k := by rw [← List.head?_eq_getElem?, head]
    simpa [same] using seen
  · exact absurd run (never_unexpected _ _ _ _)

private theorem ruleHead_begun {head : RuleHead} (link : Linking l roles [] s) (unnamed : s.Unnamed)
    (modules : ∀ i ∈ s.imports, Import.Named i) (found : s.Ahead AsFound)
    (done : ruleHead s = .ok (head, s')) : ∃ l roles, Begun l roles s' := by
  obtain ⟨_, shelved⟩ := ruleHead_shelved s head s' done ⟨unnamed, link⟩
  obtain ⟨strings, link'⟩ := shelved.stocked
  have onward : Onward [] [head.keyword] s s' := ruleHead_calm.onward s head s' done link
  have imports : s'.imports = s.imports := congrArg Surroundings.imports onward.around
  exact ⟨_, _, link', shelved.unnamed, shelved.keyed, imports ▸ modules,
    found.onward AsFound AsFound.suffix link onward⟩

private theorem rule_reread {rule : Rule} (link : Linking l roles [] s) (unnamed : s.Unnamed)
    (modules : ∀ i ∈ s.imports, Import.Named i)
    (found : s.Ahead AsFound) (done : Grammar.rule s = .ok (rule, s'))
    (clear : ∀ h ∈ rule.condition.handles, Lexer.onlyBackslashes (s'.source.tokens.text h) = false) :
    ∃ head start f t, ruleHead s = .ok (head, start) ∧
      readCondition start (rule.condition.text s'.source.tokens) = .ok (rule.condition.mapHandles f, t) ∧
      t.source.rest = [] ∧
      ∀ h ∈ rule.condition.handles, t.source.tokens.text (f h) = s'.source.tokens.text h := by
  obtain ⟨head, s₁, began, run⟩ := bind_done done
  obtain ⟨condition, s₂, read, run⟩ := bind_done run
  obtain ⟨_, _, begun⟩ := ruleHead_begun link unnamed modules found began
  -- no token has changed its text since the condition began
  obtain ⟨strings, sighted, ready⟩ := ruleHead_ready link unnamed modules began
  have meant := condition_meant sighted s₁ condition s₂ read ready
  obtain ⟨rfl, _, words⟩ := ruleTail_ready head condition s₂ rule s' run meant.ready
  have texts : s₁.source.tokens.text = s'.source.tokens.text := funext fun h => (ready.word h).trans (words h).symm
  have texts' : s₂.source.tokens.text = s'.source.tokens.text :=
    funext fun h => (meant.ready.word h).trans (words h).symm
  have ends (h : Handle) (next : h ∈ s₂.source.rest.head?) :
      (s₁.source.tokens.get? h).map (·.kind) = some .closeBrace := by
    obtain ⟨closing, _, closed, _⟩ := bind_done run
    have apart := begun.link.unread_nodup
    rw [← ((condition_calm.onward s₁ _ s₂ read).get?_waiting apart (List.mem_of_mem_head? next)).2]
    exact expect_head closed h next
  obtain ⟨f, t, reread, ended, same⟩ := begun.reread read ends (texts ▸ clear)
  rw [Expr.text, texts] at reread
  exact ⟨head, s₁, f, t, began, reread, ended, texts' ▸ same⟩

/-- Reading from the first state comes to the condition of the rule. -/
def ComesToCondition (first : State) (rule : Rule) (start : State) : Prop :=
  ∃ chain past before between head, Reaches first chain past before ∧ Grammar.rule before = .ok (rule, between) ∧
    ruleHead before = .ok (head, start)

end Grammar

namespace RuleFile.Origin

open Grammar

variable {settings : Settings} {tree : FileTree} {id : ChainId} {origin : Origin} {file : RuleFile} {rule : Rule}

/-- The text of a condition is read as the same tree where the condition of its rule begins, and nothing of it
is left over, unless a regular expression in it has only backslashes between its slashes. -/
theorem conditions_reread (done : origin.read settings tree id = .ok file) (member : rule ∈ file.rules)
    (clear : ∀ h ∈ rule.condition.handles, Lexer.onlyBackslashes (file.tokens.text h) = false) :
    ∃ source start e t, origin.source tree id = .ok source ∧
    ComesToCondition (origin.start settings tree id source) rule start ∧
      readCondition start (rule.condition.text file.tokens) = .ok (e, t) ∧ t.source.rest = [] ∧
      Rule.outline { rule with condition := e } t.source.tokens = rule.outline file.tokens := by
  rw [read_eq] at done
  cases found : origin.source tree id with
  | error e => rw [found] at done; cases done
  | ok source =>
    rw [found] at done
    obtain ⟨pieces, last, course, rfl⟩ := readSource_course done
    obtain ⟨_, _, final⟩ := (course.arrayed (source_laid found).1.first).place
    have rules : last.rules = rulesOf pieces := final.rules
    have poised : Poised _ (origin.start settings tree id source) := start_poised found
    have lexed : (origin.start settings tree id source).Ahead AsFound := by
      rcases origin.source_cases tree id with ⟨path, content, same⟩ | ⟨e, failed, _⟩
      · exact sourceOf_found (same.symm.trans found)
      · cases failed.symm.trans found
    obtain ⟨chain, past, before, between, reaches, read, forth, known⟩ := course.point poised rule (rules ▸ member)
    obtain ⟨ahead, _, here⟩ := reaches.ahead AsFound AsFound.suffix sourceOf_found poised lexed
    obtain ⟨_, link⟩ := here.accounted
    have texts (h : Handle) (held : h ∈ rule.condition.handles) :
        last.source.tokens.text h = between.source.tokens.text h :=
      forth.text h (known h (by simp [Rule.row, Rule.bodyRow, Rule.conditionRow, held]))
    obtain ⟨head, start, f, t, began, reread, ended, same⟩ := rule_reread link here.unnamed here.modules ahead read
      fun h held => texts h held ▸ clear h held
    refine ⟨source, start, rule.condition.mapHandles f, t, rfl,
      ⟨chain, past, before, between, head, reaches, read, began⟩, ?_, ended, ?_⟩
    · rw [← reread]
      exact congrArg _ (rule.condition.textWith_congr texts)
    · exact Rule.outline_mapHandles fun h held => (same h held).trans (texts h held).symm

/-- A condition with a rule, a string and a regular expression, in another layout than that of its text. -/
def spreadContent : Bytes :=
  Bytes.ofText "rule b\x7bcondition:true\x7drule a\x7bstrings:$s=\"x\"condition:b  and#s  in( 1 .. 3 )==2 and\"a\"matches/\\\\b/\x7d"

private theorem spread_rule : yields ((Origin.text spreadContent).read {} {} 0) (fun file =>
    file.rules.any fun rule => rule.condition.text file.tokens == "b and #s in (1..3) == 2 and \"a\" matches /\\\\b/" &&
      rule.condition.handles.all fun h => !Lexer.onlyBackslashes (file.tokens.text h)) = true := by
  decide +kernel

theorem conditions_reread_spread : ∃ file, (Origin.text spreadContent).read {} {} 0 = .ok file ∧ ∃ rule ∈ file.rules,
    (∀ h ∈ rule.condition.handles, Lexer.onlyBackslashes (file.tokens.text h) = false) ∧
    ∃ source start e t, (Origin.text spreadContent).source {} 0 = .ok source ∧
      ComesToCondition ((Origin.text spreadContent).start {} {} 0 source) rule start ∧
      readCondition start "b and #s in (1..3) == 2 and \"a\" matches /\\\\b/" = .ok (e, t) ∧ t.source.rest = [] ∧
      Rule.outline { rule with condition := e } t.source.tokens = rule.outline file.tokens := by
  obtain ⟨file, done, run⟩ := yields_iff.mp spread_rule
  obtain ⟨rule, member, same⟩ := List.any_eq_true.mp run
  simp only [Bool.and_eq_true, beq_iff_eq, List.all_eq_true, Bool.not_eq_true'] at same
  obtain ⟨text, clear⟩ := same
  exact ⟨file, done, rule, member, clear, text ▸ conditions_reread done member clear⟩

end RuleFile.Origin

end YaraRules
