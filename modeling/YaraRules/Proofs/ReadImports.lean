import YaraRules.Proofs.FileEditForms
import YaraRules.Proofs.LexerTexts
import YaraRules.Proofs.ReadCycles
import YaraRules.Proofs.ReadRuleDirectives

/-! Import statements of a file that includes no other. The file has the modules that its
statements name, in order; statements that name a module again change nothing. -/

namespace YaraRules

/-! ### Items and those that follow them -/

/-- Items with a property, each with the item that follows it. -/
def followed {α : Type} (p : α → Bool) : List α → List (α × Option α)
  | [] => []
  | a :: rest => if p a then (a, rest.head?) :: followed p rest else followed p rest

section

variable {α β : Type} {p : α → Bool}

theorem followed_none {items : List α} (none : ∀ a ∈ items, p a = false) : followed p items = [] := by
  induction items with
  | nil => rfl
  | cons a rest ih =>
    rw [followed, if_neg (by simp [none a]), ih fun b member => none b (List.mem_cons_of_mem a member)]

/-- Lists are parted behind an item without the property. -/
theorem followed_append {front : List α} (plain : ∀ a ∈ front.getLast?, p a = false) (back : List α) :
    followed p (front ++ back) = followed p front ++ followed p back := by
  induction front with
  | nil => rfl
  | cons a rest ih =>
    cases rest with
    | nil => simp [followed, plain a rfl]
    | cons b more =>
      have later := ih fun c last => plain c (by rwa [List.getLast?_cons_cons])
      rw [List.cons_append, followed, followed, later]
      split_ifs <;> simp

private theorem followed_congr {q : α → Bool} :
    ∀ {items : List α}, (∀ a ∈ items, q a = p a) → followed q items = followed p items
  | [], _ => rfl
  | a :: rest, same => by
    have later := followed_congr fun b member => same b (List.mem_cons_of_mem a member)
    rw [followed, followed, same a (by simp), later]

private theorem followed_map (f : β → α) :
    ∀ items : List β, followed p (items.map f) = (followed (p ∘ f) items).map (Prod.map f (Option.map f))
  | [] => rfl
  | a :: rest => by
    simp only [List.map_cons, followed, Function.comp, followed_map f rest]
    split_ifs <;> simp [List.head?_map, Function.comp_def]

private theorem mem_of_followed : ∀ {items : List α} {pair : α × Option α}, pair ∈ followed p items →
    pair.1 ∈ items ∧ p pair.1 = true ∧ ∀ b, pair.2 = some b → b ∈ items
  | a :: rest, pair, member => by
    have later (inside : pair ∈ followed p rest) :
        pair.1 ∈ a :: rest ∧ p pair.1 = true ∧ ∀ b, pair.2 = some b → b ∈ a :: rest := by
      obtain ⟨one, holds, next⟩ := mem_of_followed inside
      exact ⟨List.mem_cons_of_mem a one, holds, fun b same => List.mem_cons_of_mem a (next b same)⟩
    rw [followed] at member
    split_ifs at member with holds
    · rcases List.mem_cons.mp member with rfl | inside
      · exact ⟨by simp, holds, fun b same => List.mem_cons_of_mem a (List.mem_of_head? same)⟩
      · exact later inside
    · exact later member

theorem followed_of_mem {a : α} (holds : p a = true) :
    ∀ {items : List α}, a ∈ items → ∃ next, (a, next) ∈ followed p items
  | b :: rest, member => by
    rw [followed]
    rcases List.mem_cons.mp member with rfl | inside
    · exact ⟨rest.head?, by simp [holds]⟩
    · obtain ⟨next, later⟩ := followed_of_mem holds inside
      refine ⟨next, ?_⟩
      split_ifs
      · exact List.mem_cons_of_mem _ later
      · exact later

private theorem followed_sublist {few : List α} :
    ∀ {items : List α}, few.Sublist items → items.Nodup → (∀ a ∈ items, p a = true → a ∈ few) →
    (∀ pair ∈ followed p items, ∀ b, pair.2 = some b → b ∈ few) → followed p few = followed p items := by
  intro items fewer
  induction fewer with
  | slnil => exact fun _ _ _ => rfl
  | @cons few rest a fewer ih =>
    intro nodup kept next
    obtain ⟨fresh, apart⟩ := List.nodup_cons.mp nodup
    have plain : ¬ p a = true := fun holds => fresh (fewer.subset (kept a (by simp) holds))
    rw [followed, if_neg plain] at next ⊢
    exact ih apart (fun b member => kept b (List.mem_cons_of_mem a member)) next
  | @cons_cons few rest a fewer ih =>
    intro nodup kept next
    obtain ⟨fresh, apart⟩ := List.nodup_cons.mp nodup
    have inside {b : α} (other : b ∈ rest) (member : b ∈ a :: few) : b ∈ few :=
      (List.mem_cons.mp member).resolve_left fun same => fresh (same ▸ other)
    have later : followed p few = followed p rest := by
      refine ih apart (fun b member holds => inside member (kept b (List.mem_cons_of_mem a member) holds))
        fun pair member b same => ?_
      refine inside ((mem_of_followed member).2.2 b same) (next pair ?_ b same)
      rw [followed]
      split_ifs
      · exact List.mem_cons_of_mem _ member
      · exact member
    rw [followed, followed, later]
    split_ifs with holds
    · have heads : few.head? = rest.head? := by
        cases rest with
        | nil => rw [List.sublist_nil.mp fewer]
        | cons b more =>
          have first : b ∈ few := inside (by simp) (next (a, some b) (by rw [followed, if_pos holds]; simp) b rfl)
          cases fewer with
          | cons _ skipped => exact absurd (skipped.subset first) (List.nodup_cons.mp apart).1
          | cons_cons => rfl
      rw [heads]
    · rfl

end

private theorem eraseDups_snoc (names : List String) (name : String) :
    (names ++ [name]).eraseDups = if name ∈ names then names.eraseDups else names.eraseDups ++ [name] := by
  rw [List.eraseDups_append]
  split_ifs with known <;> simp [List.removeAll, known, List.eraseDups_cons]

theorem eraseDups_nodup (names : List String) (nodup : names.Nodup) : names.eraseDups = names := by
  obtain ⟨backward, rfl⟩ : ∃ backward : List String, names = backward.reverse := ⟨names.reverse, by simp⟩
  induction backward with
  | nil => rfl
  | cons name rest ih =>
    rw [List.reverse_cons] at nodup ⊢
    have new : name ∉ rest.reverse := fun known => List.disjoint_of_nodup_append nodup known (by simp)
    rw [eraseDups_snoc, if_neg new, ih (List.nodup_append.mp nodup).1]

/-! ### Import statements in streams -/

namespace TokenStream

/-- Tokens that are neither comments nor line breaks. -/
def wordsOf (spots : List Spot) : List Spot := spots.filter fun spot => !spot.2.1.isTrivia

@[simp] theorem wordsOf_append (front back : List Spot) : wordsOf (front ++ back) = wordsOf front ++ wordsOf back :=
  List.filter_append ..

/-- Words of a stream, in reading order. -/
def words (s : TokenStream) : List Spot := wordsOf s.spots

/-- Kinds and texts of the words. -/
def spelling (s : TokenStream) : List (TokenKind × String) := s.words.map fun spot => (spot.2.1, s.text spot.1)

/-- The word begins an import statement. -/
def beginsImport (spot : Spot) : Bool := spot.2.1 == .kwImport

/-- Import statements, by the keyword and the word that follows it. -/
def statementsOf (words : List Spot) : List (Handle × Option Handle) :=
  (followed beginsImport words).map fun statement => (statement.1.1, statement.2.map (·.1))

def statements (s : TokenStream) : List (Handle × Option Handle) := statementsOf s.words

/-- The token is neither a comment nor a line break. -/
def isWord (s : TokenStream) (h : Handle) : Bool := (s.get? h).any fun a => !a.kind.isTrivia

/-- A stream is read token by token if none of them owns another one. -/
theorem spots_entries {s : TokenStream} (free : ∀ entry ∈ s.entries, s.subAt? entry.1.index = none) :
    s.spots = s.entries.map fun entry => (entry.1, entry.2.kind, false) := by
  rw [spots_eq, view, List.flatMap_map, List.map_eq_flatMap]
  exact List.flatMap_congr fun entry member => by simp [spotsAt, piece, free entry member]

private theorem Lone.spots_entries {s : TokenStream} (lone : s.Lone) :
    s.spots = s.entries.map fun entry => (entry.1, entry.2.kind, false) :=
  TokenStream.spots_entries fun _ member => lone.free (List.mem_map_of_mem (f := s.piece) member)

private theorem Lone.get?_entry {s : TokenStream} (lone : s.Lone) {h : Handle} {a : Token} :
    s.get? h = some a ↔ (h, a) ∈ s.entries := by
  by_cases own : h.chain = s.chain.id
  · rw [get?_top s own]
    exact lone.sound.chain.get?_eq_some h a
  · refine ⟨fun stored => absurd (mem_ids_of_get? stored) (by simpa [lone.ids] using own), fun listed => absurd ?_ own⟩
    exact lone.sound.chain_of_view (List.mem_map_of_mem (f := s.piece) listed)

/-- Words are found by the tokens that their handles name. -/
theorem Lone.words_entries {s : TokenStream} (lone : s.Lone) :
    s.words.map (·.1) = (s.entries.map (·.1)).filter s.isWord := by
  rw [words, wordsOf, lone.spots_entries, List.filter_map, List.map_map, List.filter_map]
  refine congrArg (List.map _) (List.filter_congr fun entry member => ?_)
  simp [isWord, lone.get?_entry.mpr member]

private theorem Lone.statements_words {s : TokenStream} (lone : s.Lone) : s.statements =
    followed (fun h => (s.get? h).any (·.kind == .kwImport)) (s.words.map (·.1)) := by
  rw [followed_map, statements, statementsOf]
  refine congrArg (List.map _) (followed_congr fun spot member => ?_)
  have listed := List.mem_of_mem_filter member
  rw [lone.spots_entries] at listed
  obtain ⟨entry, inside, rfl⟩ := List.mem_map.mp listed
  simp [lone.get?_entry.mpr inside, beginsImport]

/-- A token that can be looked up is read somewhere. -/
theorem Tidy.spot_of_get? {s : TokenStream} (tidy : s.Tidy) {h : Handle} {a : Token} (stored : s.get? h = some a) :
    ∃ owned, (h, a.kind, owned) ∈ s.spots := by
  obtain ⟨owner, held, found⟩ := Option.bind_eq_some_iff.mp stored
  obtain ⟨ahead, behind, parts, _⟩ := spots_modifyOwner tidy.sound held
  have listed := ((tidy.sound.owner? held).chain.get?_eq_some _ _).mp found
  refine ⟨(owner.subAt? h.index).isSome, ?_⟩
  rw [parts, spots_eq owner]
  refine List.mem_append_right _ (List.mem_append_left _
    (List.mem_flatMap.mpr ⟨_, List.mem_map_of_mem (f := owner.piece) listed, ?_⟩))
  exact List.mem_cons_self

end TokenStream

/-- Names of the modules that import statements ask for. -/
def importedNames (words : List (TokenKind × String)) : List String :=
  (followed (·.1 == .kwImport) words).filterMap fun statement => statement.2.map fun word => Text.trimChar '"' word.2

private theorem importedNames_spelling (s : TokenStream) : importedNames s.spelling =
    s.statements.filterMap fun statement => statement.2.map fun h => Text.trimChar '"' (s.text h) := by
  rw [importedNames, TokenStream.spelling, followed_map, TokenStream.statements, TokenStream.statementsOf,
    List.filterMap_map, List.filterMap_map]
  refine List.filterMap_congr fun ⟨_, next⟩ _ => ?_
  cases next <;> rfl

namespace Grammar

open TokenStream (Lone Plain)

/-! ### Reading statements -/

/-- The token was the keyword of a directive before anything was read. -/
def State.leads (first : State) (h : Handle) : Bool := (first.source.tokens.get? h).any fun a => isDirective a.kind

/-- Name of the module that a statement asks for. -/
def State.asked (first : State) (statement : Handle × Handle) : String :=
  Text.trimChar '"' (first.source.tokens.text statement.2)

/-- Import statements were read from a source, by keyword and name, and whatever stands between them. -/
structure Along (first : State) (read : List (Handle × Handle)) (s : State) : Prop where
  ids : s.source.tokens.ids = first.source.tokens.ids
  taken : ∃ taken, first.source.rest = taken ++ s.source.rest
  same : ∀ h, h ∈ s.source.rest ∨ h ∉ first.source.rest → s.source.tokens.get? h = first.source.tokens.get? h
  old : ∀ h b, s.source.tokens.get? h = some b → isDirective b.kind = true →
    ∃ a, first.source.tokens.get? h = some a ∧ isDirective a.kind = true
  order : (s.source.tokens.entries.map (·.1)).Sublist (first.source.tokens.entries.map (·.1))
  statements : followed first.leads first.source.rest =
    read.map (fun statement => (statement.1, some statement.2)) ++ followed first.leads s.source.rest
  kept : ∀ statement ∈ read, ∀ h ∈ [statement.1, statement.2], h ∉ s.source.rest ∧
    s.source.tokens.get? h = first.source.tokens.get? h
  strings : ∀ statement ∈ read, (first.source.tokens.get? statement.2).map (·.kind) = some .string
  names : s.imports.map (·.moduleName) = (read.map first.asked).eraseDups
  each : (read.map first.asked).Nodup → s.imports.map (fun i => (i.keyword, i.name)) = read

theorem Along.start {first : State} (none : first.imports = []) : Along first [] first where
  ids := rfl
  taken := ⟨[], rfl⟩
  same _ _ := rfl
  old _ b stored directs := ⟨b, stored, directs⟩
  order := .refl _
  statements := rfl
  kept := nofun
  strings := nofun
  names := by simp [none]
  each _ := by simp [none]

variable {l : Ledger} {first s between : State} {read : List (Handle × Handle)}

theorem Along.ruled {found : Rule} (along : Along first read s) (poised : Poised l s)
    (run : rule s = .ok (found, between)) : Along first read { between with rules := between.rules ++ [found] } := by
  obtain ⟨named, link⟩ := poised.accounted
  obtain ⟨taken, whole⟩ := along.taken
  have intact := rule_intact s found between run ⟨.refl link.unread_nodup, link⟩
  obtain ⟨more, split⟩ := intact.taken
  have onward : Onward [] [found.keyword] s between := rule_calm.onward s found between run link
  have imports : between.imports = s.imports := onward.imports
  have later {h : Handle} (member : h ∈ between.source.rest) : h ∈ s.source.rest :=
    split ▸ List.mem_append_right _ member
  have earlier {h : Handle} (member : h ∈ s.source.rest) : h ∈ first.source.rest :=
    whole ▸ List.mem_append_right _ member
  have fresh : ∀ h ∈ more, first.leads h = false := fun h member => by
    have waits : h ∈ s.source.rest := split ▸ List.mem_append_left _ member
    refine Bool.eq_false_iff.mpr fun leads => ?_
    obtain ⟨a, stored, directs⟩ := Option.any_eq_true _ _ |>.mp leads
    have still := intact.awaits h ⟨waits, a, (along.same h (.inl waits)).trans stored, directs⟩
    exact List.disjoint_of_nodup_append (split ▸ link.unread_nodup) member still
  exact {
    ids := (onward.settled.shaped link.sound).2.1.trans along.ids
    taken := ⟨taken ++ more, by rw [whole, split, List.append_assoc]⟩
    same := fun h apart => by
      rcases apart with waits | outside
      · exact (intact.same h (.inl waits)).trans (along.same h (.inl (later waits)))
      · exact (intact.same h (.inr fun inside => outside (earlier inside))).trans (along.same h (.inr outside))
    old := fun h b stored directs => by
      obtain ⟨a, found, leads⟩ := intact.old h b stored directs
      exact along.old h a found leads
    order := intact.order.trans along.order
    statements := by
      rw [along.statements, split, followed_append fun h last => fresh h (List.mem_of_getLast? last),
        followed_none fresh, List.nil_append]
    kept := fun statement member h part => by
      obtain ⟨spent, same⟩ := along.kept statement member h part
      exact ⟨fun waits => spent (later waits), (intact.same h (.inr spent)).trans same⟩
    strings := along.strings
    names := (congrArg _ imports).trans along.names
    each := fun nodup => (congrArg _ imports).trans (along.each nodup) }

private theorem expect_kind {kind : TokenKind} {h : Handle} (done : expect kind s = .ok (h, between)) :
    ∃ rest a, s.source.rest = h :: rest ∧ between = { s with source := { s.source with rest } } ∧
      s.source.tokens.get? h = some a ∧ a.kind = kind := by
  obtain ⟨rest, whole, rfl⟩ := expect_done done
  obtain ⟨_, _, looked, run⟩ := bind_done done
  cases looked
  split_ifs at run with same
  · obtain ⟨a, stored, kind⟩ : ∃ a, s.source.tokens.get? h = some a ∧ a.kind = kind := by simpa [whole] using same
    exact ⟨rest, a, whole, rfl, stored, kind⟩
  · exact absurd run (never_unexpected _ _ _ _)

/-- Two tokens are read, and the module is imported unless it is known. -/
theorem importDirective_done (run : importDirective s = .ok ((), between)) : ∃ keyword name rest a b pool found,
    s.source.rest = keyword :: name :: rest ∧ s.source.tokens.get? keyword = some a ∧ a.kind = .kwImport ∧
      s.source.tokens.get? name = some b ∧ b.kind = .string ∧
      found.name = Text.trimChar '"' (s.source.tokens.text name) ∧
      between = { s with
        source := { s.source with rest }
        pool
        imports :=
          if s.imports.any (·.moduleName == found.name) then s.imports
          else s.imports ++ [⟨keyword, name, found⟩] } := by
  obtain ⟨keyword, s₁, one, run⟩ := bind_done run
  obtain ⟨after, a, whole, rfl, stored, kind⟩ := expect_kind one
  obtain ⟨name, s₂, two, run⟩ := bind_done run
  obtain ⟨rest, b, split, rfl, stored', kind'⟩ := expect_kind two
  obtain rfl : after = name :: rest := split
  obtain ⟨_, _, looked, run⟩ := bind_done run
  cases looked
  obtain ⟨_, _, looked, run⟩ := bind_done run
  cases looked
  dsimp only at run
  cases loaded : (s.pool.load (Text.trimChar '"' (s.source.tokens.text name)) s.settings.features).1 with
  | none =>
    simp only [loaded] at run
    cases run
  | some found =>
    simp only [loaded] at run
    cases run
    exact ⟨keyword, name, rest, a, b, _, found, whole, stored, kind, stored', kind', (FileEdit.load_name loaded).1, rfl⟩

theorem Along.imported (along : Along first read s) (poised : Poised l s)
    (run : importDirective s = .ok ((), between)) : ∃ statement, Along first (read ++ [statement]) between := by
  obtain ⟨named, link⟩ := poised.accounted
  obtain ⟨taken, whole⟩ := along.taken
  obtain ⟨keyword, name, rest, a, b, pool, found, split, stored, kind, stored', kind', asked, rfl⟩ :=
    importDirective_done run
  have nodup : (keyword :: name :: rest).Nodup := split ▸ link.unread_nodup
  have later {h : Handle} (member : h ∈ rest) : h ∈ s.source.rest := by simp [split, member]
  have before {h : Handle} {c : Token} (waits : h ∈ s.source.rest) (here : s.source.tokens.get? h = some c) :
      first.source.tokens.get? h = some c := (along.same h (.inl waits)).symm.trans here
  have stored₁ := before (by simp [split]) stored
  have stored₂ := before (by simp [split]) stored'
  have leads : first.leads keyword = true := by simp [State.leads, stored₁, kind, isDirective]
  have plain : first.leads name = false := by simp [State.leads, stored₂, kind', isDirective]
  have asks : first.asked (keyword, name) = found.name := by
    obtain ⟨c, here, own⟩ := (link.loose name (by simp [split])).plain
    obtain rfl := Option.some.inj (stored'.symm.trans here)
    rw [State.asked, asked, text_shown stored₂ own, text_shown stored' own]
  have known : s.imports.any (·.moduleName == found.name) = true ↔ found.name ∈ read.map first.asked := by
    rw [← List.mem_eraseDups, ← along.names]
    simp
  refine ⟨(keyword, name), {
    ids := along.ids
    taken := ⟨taken ++ [keyword, name], by simp [whole, split]⟩
    same := fun h apart => along.same h (apart.imp_left later)
    old := along.old
    order := along.order
    statements := by simp [along.statements, split, followed, leads, plain]
    kept := fun statement member h part => ?_
    strings := List.forall_mem_append.mpr ⟨along.strings, by simp [stored₂, kind']⟩
    names := ?_
    each := fun apart => ?_ }⟩
  · rcases List.mem_append.mp member with old | new
    · obtain ⟨spent, same⟩ := along.kept statement old h part
      exact ⟨fun waits => spent (later waits), same⟩
    · obtain rfl := List.mem_singleton.mp new
      have waits : h ∈ s.source.rest := by
        rcases List.mem_cons.mp part with rfl | part
        · simp [split]
        · simp [split, List.mem_singleton.mp part]
      refine ⟨fun left => ?_, along.same h (.inl waits)⟩
      simp only [List.nodup_cons, List.mem_cons, not_or] at nodup
      rcases List.mem_cons.mp part with rfl | part
      · exact nodup.1.2 left
      · obtain rfl := List.mem_singleton.mp part
        exact nodup.2.1 left
  · rw [List.map_append, List.map_singleton, asks, eraseDups_snoc, ← along.names]
    dsimp only
    by_cases again : found.name ∈ read.map first.asked
    · rw [if_pos (known.mpr again), if_pos again]
    · rw [if_neg fun listed => again (known.mp listed), if_neg again, List.map_append]
      rfl
  · rw [List.map_append, List.map_singleton, asks] at apart
    have new : found.name ∉ read.map first.asked := fun again => (List.disjoint_of_nodup_append apart) again (by simp)
    dsimp only
    rw [if_neg fun listed => new (known.mp listed), List.map_append, along.each (List.nodup_append.mp apart).1]
    rfl

/-- A directive that includes a file was to be read, and leaves its keyword in the tokens. -/
theorem Poised.includes (poised : Poised l s) {d : Directive} (run : Grammar.directive s = .ok (d, between)) :
    between.HasRead d.keyword ∧ d.keyword ∈ s.source.rest ∧ ∃ a, s.source.tokens.get? d.keyword = some a ∧
      between.source.tokens.get? d.keyword = some a ∧ a.kind = .kwInclude := by
  obtain ⟨read, link⟩ := poised.accounted
  have named := directive_named s d between run link
  have loose := named.loose d.keyword (by simp)
  refine ⟨⟨loose.own ▸ TokenStream.id_mem_ids _, (List.nodup_cons.mp named.apart).1⟩, ?_⟩
  obtain ⟨keyword, _, one, run⟩ := bind_done run
  obtain ⟨after, a, whole, rfl, stored, kind⟩ := expect_kind one
  obtain ⟨token, _, two, run⟩ := bind_done run
  obtain ⟨_, _, rfl⟩ := expect_done two
  cases run
  exact ⟨by simp [whole], a, stored, stored, kind⟩

/-- No directive that includes a file was to be read, or none is left in the tokens. -/
def Uninclusive (first last : State) : Prop :=
  (∀ h ∈ first.source.rest, ∀ a, first.source.tokens.get? h = some a → a.kind ≠ .kwInclude) ∨
    ∀ h a, last.source.tokens.get? h = some a → a.kind ≠ .kwInclude

private theorem Uninclusive.absurd {last : State} (alone : Uninclusive first last) (along : Along first read s)
    {h : Handle} {a : Token} (waits : h ∈ s.source.rest) (stored : s.source.tokens.get? h = some a)
    (final : last.source.tokens.get? h = some a) (includes : a.kind = .kwInclude) : False := by
  rcases alone with unread | gone
  · obtain ⟨taken, whole⟩ := along.taken
    exact unread h (whole ▸ List.mem_append_right _ waits) a ((along.same h (.inl waits)).symm.trans stored) includes
  · exact gone h a final includes

/-- The statements of a course are read one after the other, unless some file is included. -/
theorem Course.along {pieces : List Piece} {s' : State} (course : Course s pieces s') :
    ∀ {l read}, Poised l s → Along first read s → Uninclusive first s' → ∃ read, Along first read s' := by
  induction course with
  | done s => exact fun _ along _ => ⟨_, along⟩
  | imported run rest ih =>
    intro l read poised along alone
    obtain ⟨statement, along'⟩ := along.imported poised run
    exact ih (poised.imported run).2 along' alone
  | ruled run rest ih =>
    intro l read poised along alone
    exact ih (poised.ruled run).2 (along.ruled poised run) alone
  | skipped run located shut again rest ih =>
    intro l read poised along alone
    obtain ⟨known, waits, a, before, stored, kind⟩ := poised.includes run
    have same := (rest.forth (poised.directive run).2).1.same _ known
    exact (alone.absurd along waits before (same.trans stored) kind).elim
  | opened run opens inside rest _ _ =>
    intro l read poised along alone
    obtain ⟨known, waits, a, before, stored, kind⟩ := poised.includes run
    have opening := poised.opening run opens
    obtain ⟨within, poisedInner⟩ := inside.forth opening.inner
    obtain ⟨across, _, poised'⟩ := opening.rejoin inside within poisedInner
    have same := (across.trans (rest.forth poised').1).same _ known
    exact (alone.absurd along waits before (same.trans stored) kind).elim

/-! ### Files -/

/-- The words of a source are still to be read. -/
theorem sourceOf_words {id : ChainId} {path : Option String} {content : Bytes} {source : Source}
    (done : sourceOf id path content = .ok source) : source.rest = source.tokens.words.map (·.1) := by
  have lone := (sourceOf_fresh done).lone
  refine (sourceOf_holds done (fun source => source.tokens.Lone ∧ source.rest = source.tokens.words.map (·.1))
    ⟨⟨TokenStream.sound_empty id, rfl⟩, rfl⟩ fun words _ token _ stream rest known => ?_).2
  obtain ⟨lone, read⟩ := known
  have read : rest.reverse = stream.words.map (·.1) := read
  obtain ⟨_, _, spots⟩ := lone.tidy.push token
  refine ⟨(lone.push token).1, ?_⟩
  show (if token.kind.isTrivia then rest else (stream.push token).1 :: rest).reverse = _
  rw [TokenStream.words, spots, TokenStream.wordsOf_append, List.map_append]
  split_ifs with trivia <;> simp [trivia, read, TokenStream.words, TokenStream.wordsOf]

/-- What is to be read are the tokens of the text that are neither comments nor line breaks. -/
theorem sourceOf_rest {id : ChainId} {path : Option String} {content : Bytes} {source : Source}
    (done : sourceOf id path content = .ok source) : source.rest.map source.tokens.get? =
    (source.tokens.tokens.filter fun a => !a.kind.isTrivia).map some := by
  have lone := (sourceOf_fresh done).lone
  have stored : ∀ entry ∈ source.tokens.entries, source.tokens.get? entry.1 = some entry.2 :=
    fun entry member => lone.get?_entry.mpr member
  have words : source.tokens.entries.filter (source.tokens.isWord ∘ (·.1)) =
      source.tokens.entries.filter ((fun a => !a.kind.isTrivia) ∘ (·.2)) :=
    List.filter_congr fun entry member => by simp [TokenStream.isWord, stored entry member]
  rw [sourceOf_words done, lone.words_entries, TokenStream.tokens, List.filter_map, List.filter_map, List.map_map,
    List.map_map, words]
  exact List.map_congr_left fun entry member => stored entry (List.mem_filter.mp member).1

private theorem start_along {source : Source} {id : ChainId} {settings : Settings} {tree : FileTree}
    {opened : List FileTree.Place}
    {file : RuleFile} (fresh : source.Fresh id) (untouched : Untouched source.tokens)
    (done : readSource settings tree source (id + 1) opened = .ok file)
    (alone : (∀ h ∈ source.rest, ∀ a, source.tokens.get? h = some a → a.kind ≠ .kwInclude) ∨
      ∀ h a, file.tokens.get? h = some a → a.kind ≠ .kwInclude) :
    ∃ read last, Along (.first settings tree source (id + 1) opened) read last ∧ last.source.rest = [] ∧
    file.tokens = last.source.tokens ∧
      file.imports = last.imports ∧ last.source.tokens.Lone := by
  have poised : Poised ⟨id, [], [], [], {}⟩ (.first settings tree source (id + 1) opened) := fresh.poised untouched
  rw [readSource_eq] at done
  have ends := itemsWithin_ends tree.files.length poised (List.length_filter_le _ _)
  cases found : itemsWithin tree.files.length (.first settings tree source (id + 1) opened) with
  | error e => rw [found] at done; cases done
  | ok result =>
    obtain ⟨⟨⟩, last⟩ := result
    rw [found] at done ends
    cases done
    obtain ⟨pieces, course⟩ := itemsWithin_course found
    obtain ⟨read, along⟩ := course.along poised (.start rfl) alone
    obtain ⟨_, link⟩ := (course.forth poised).2.accounted
    have lone : last.source.tokens.Lone := by
      have ids : last.source.tokens.ids = source.tokens.ids := along.ids
      exact ⟨link.sound, by rw [ids, fresh.lone.ids, TokenStream.id_of_ids ids]⟩
    exact ⟨read, last, along, ends, rfl, rfl, lone⟩

/-- The statements that were read are those of the tokens. -/
theorem Along.final {last : State} (along : Along first read last) (ended : last.source.rest = [])
    (lone : first.source.tokens.Lone)
    (lone' : last.source.tokens.Lone) (waiting : first.source.rest = first.source.tokens.words.map (·.1))
    (untouched : Untouched first.source.tokens)
    (alone : ∀ h a, last.source.tokens.get? h = some a → a.kind ≠ .kwInclude) :
    last.source.tokens.statements = read.map (fun statement => (statement.1, some statement.2)) ∧
      ∀ statement ∈ read, ∃ a, last.source.tokens.Tells statement.2 a ∧ a.kind = .string ∧
        Text.trimChar '"' (shown a) = first.asked statement := by
  have waiting' : first.source.rest = (first.source.tokens.entries.map (·.1)).filter first.source.tokens.isWord :=
    waiting.trans lone.words_entries
  have inside {h : Handle} (member : h ∈ first.source.rest) :
      ∃ a, first.source.tokens.get? h = some a ∧ a.kind.isTrivia = false := by
    have word := (List.mem_filter.mp (waiting' ▸ member)).2
    obtain ⟨a, stored, plain⟩ := Option.any_eq_true _ _ |>.mp word
    exact ⟨a, stored, by simpa using plain⟩
  have listed {statement : Handle × Handle} (member : statement ∈ read) :
      (statement.1, some statement.2) ∈ followed first.leads first.source.rest := by
    rw [along.statements]
    exact List.mem_append_left _ (List.mem_map_of_mem member)
  have told {statement : Handle × Handle} (member : statement ∈ read) {h : Handle} (part : h ∈
    [statement.1, statement.2]) :
      h ∈ first.source.rest := by
    obtain ⟨one, _, next⟩ := mem_of_followed (listed member)
    rcases List.mem_cons.mp part with rfl | part
    · exact one
    · exact List.mem_singleton.mp part ▸ next _ rfl
  -- What was told is still there, and no other word was a directive.
  have kept {statement : Handle × Handle} (member : statement ∈ read) {h : Handle} (part : h ∈
    [statement.1, statement.2]) :
      h ∈ last.source.tokens.words.map (·.1) := by
    obtain ⟨a, stored, word⟩ := inside (told member part)
    have stored' := (along.kept statement member h part).2.trans stored
    rw [lone'.words_entries]
    refine List.mem_filter.mpr ⟨List.mem_map_of_mem (f := (·.1)) (lone'.get?_entry.mp stored'), ?_⟩
    simp [TokenStream.isWord, stored', word]
  have fewer : (last.source.tokens.words.map (·.1)).Sublist first.source.rest := by
    rw [lone'.words_entries, waiting']
    refine (List.monotone_filter_right _ fun h word => ?_).trans (along.order.filter _)
    by_cases waited : h ∈ first.source.rest
    · exact (List.mem_filter.mp (waiting' ▸ waited)).2
    · rwa [TokenStream.isWord, ← along.same h (.inr waited)]
  have nodup : first.source.rest.Nodup := waiting' ▸ lone.sound.chain.handles_nodup.filter _
  have leads : ∀ h ∈ last.source.tokens.words.map (·.1), (last.source.tokens.get? h).any (·.kind == .kwImport) =
      first.leads h := by
    intro h member
    by_cases lead : first.leads h = true
    · obtain ⟨next, paired⟩ := followed_of_mem lead (fewer.subset member)
      rw [along.statements, ended, followed, List.append_nil] at paired
      obtain ⟨statement, known, same⟩ := List.mem_map.mp paired
      obtain ⟨rfl, _⟩ := Prod.mk.inj same
      obtain ⟨a, stored, directs⟩ := Option.any_eq_true _ _ |>.mp lead
      have stored' := (along.kept statement known statement.1 (by simp)).2.trans stored
      have imports : a.kind = .kwImport := by
        have other := alone _ a stored'
        revert directs other
        cases a.kind <;> simp [isDirective]
      simp [lead, stored', imports]
    · refine (Bool.eq_false_iff.mpr fun imports => lead ?_).trans (Bool.eq_false_iff.mpr lead).symm
      obtain ⟨b, stored, kind⟩ := Option.any_eq_true _ _ |>.mp imports
      have kind : b.kind = .kwImport := by simpa using kind
      obtain ⟨a, found, directs⟩ := along.old h b stored (by simp [kind, isDirective])
      exact Option.any_eq_true _ _ |>.mpr ⟨a, found, directs⟩
  constructor
  · rw [lone'.statements_words, followed_congr leads, followed_sublist fewer nodup (fun h waits lead => ?_)
      fun pair member h next => ?_, along.statements, ended, followed, List.append_nil]
    · obtain ⟨next, paired⟩ := followed_of_mem lead waits
      rw [along.statements, ended, followed, List.append_nil] at paired
      obtain ⟨statement, known, same⟩ := List.mem_map.mp paired
      exact (Prod.mk.inj same).1 ▸ kept known (by simp)
    · rw [along.statements, ended, followed, List.append_nil] at member
      obtain ⟨statement, known, rfl⟩ := List.mem_map.mp member
      obtain rfl := Option.some.inj next
      exact kept known (by simp)
  · intro statement member
    obtain ⟨a, stored, _⟩ := inside (told member (by simp : statement.2 ∈ _))
    have own : Plain a := (untouched.get? (lone.sound.chain_of_view
      (List.mem_map_of_mem (lone.get?_entry.mp stored))) stored).1
    refine ⟨a, ⟨(along.kept statement member statement.2 (by simp)).2.trans stored, own⟩, ?_,
      by rw [State.asked, text_shown stored own]⟩
    simpa [stored] using along.strings statement member

/-- What the statements ask for that were read is what the words ask for. -/
private theorem asked_words {last : State} {found : List Token}
    (words : first.source.rest.map first.source.tokens.get? = found.map some)
    (untouched : Untouched first.source.tokens) (lone : first.source.tokens.Lone) (along : Along first read last)
    (ended : last.source.rest = []) (alone : ∀ a ∈ found, a.kind ≠ .kwInclude) :
    read.map first.asked = importedNames (found.map fun a => (a.kind, shown a)) := by
  let directs (o : Option Token) : Bool := o.any fun a => isDirective a.kind
  have statements : (followed (fun a : Token => a.kind == .kwImport) found).map (Prod.map some (Option.map some)) =
      (read.map fun statement => (statement.1, some statement.2)).map
        (Prod.map first.source.tokens.get? (Option.map first.source.tokens.get?)) := by
    have imports : followed (fun a : Token => a.kind == .kwImport) found = followed (directs ∘ some) found := by
      refine followed_congr fun a member => ?_
      have other := alone a member
      revert other
      show a.kind ≠ .kwInclude → (a.kind == .kwImport) = isDirective a.kind
      cases a.kind <;> simp [isDirective]
    have leads : followed first.leads first.source.rest =
        read.map fun statement => (statement.1, some statement.2) := by
      rw [along.statements, ended, followed, List.append_nil]
    rw [imports, ← followed_map, ← words, followed_map, ← leads]
    rfl
  let name (statement : Option Token × Option (Option Token)) : Option String :=
    statement.2.bind fun o => o.map fun a => Text.trimChar '"' (shown a)
  have asked : ∀ statement ∈ read,
      name (first.source.tokens.get? statement.1, some (first.source.tokens.get? statement.2)) =
        some (first.asked statement) := by
    intro statement member
    obtain ⟨a, stored, _⟩ := Option.map_eq_some_iff.mp (along.strings statement member)
    have own : Plain a := (untouched.get? (lone.sound.chain_of_view
      (List.mem_map_of_mem (lone.get?_entry.mp stored))) stored).1
    rw [State.asked, text_shown stored own, stored]
    rfl
  calc read.map first.asked
    _ = read.filterMap (some ∘ first.asked) := (congrFun List.filterMap_eq_map read).symm
    _ = read.filterMap fun statement =>
          name (first.source.tokens.get? statement.1, some (first.source.tokens.get? statement.2)) :=
        List.filterMap_congr fun statement member => (asked statement member).symm
    _ = ((followed (fun a : Token => a.kind == .kwImport) found).map
          (Prod.map some (Option.map some))).filterMap name := by
        rw [statements, List.map_map, List.filterMap_map]
        rfl
    _ = importedNames (found.map fun a => (a.kind, shown a)) := by
        rw [importedNames, followed_map, List.filterMap_map, List.filterMap_map]
        refine List.filterMap_congr fun ⟨_, next⟩ _ => ?_
        cases next <;> rfl

end Grammar

namespace RuleFile

variable {file : RuleFile}

/-- No word of the file includes another file. -/
def Alone (file : RuleFile) : Prop := ∀ word ∈ file.tokens.spelling, word.1 ≠ .kwInclude

theorem Alone.get? (alone : file.Alone) (tidy : file.tokens.Tidy) {h : Handle} {a : Token}
    (stored : file.tokens.get? h = some a) : a.kind ≠ .kwInclude := by
  obtain ⟨owned, listed⟩ := tidy.spot_of_get? stored
  intro includes
  refine alone (a.kind, file.tokens.text h) (List.mem_map.mpr ⟨(h, a.kind, owned),
    List.mem_filter.mpr ⟨listed, ?_⟩, rfl⟩) includes
  simp [includes, TokenKind.isTrivia]

/-- The import statements of the tokens are those of the file, in order, and each names another module. -/
structure Stated (file : RuleFile) : Prop where
  ordered : file.Ordered
  alone : file.Alone
  statements : file.tokens.statements = file.imports.map fun i => (i.keyword, some i.name)
  named : ∀ i ∈ file.imports, ∃ a, file.tokens.Tells i.name a ∧ a.kind = .string ∧
    Text.trimChar '"' (Grammar.shown a) = i.moduleName
  unique : (file.imports.map (·.moduleName)).Nodup

theorem Stated.names (stated : file.Stated) : importedNames file.tokens.spelling = file.imports.map (·.moduleName) := by
  rw [importedNames_spelling, stated.statements, List.filterMap_map, ← List.filterMap_eq_map]
  refine List.filterMap_congr fun i member => ?_
  obtain ⟨a, tells, _, named⟩ := stated.named i member
  simp [Grammar.text_shown tells.1 tells.2, named]

/-- The modules of a file that was read are those that its statements name, each where it is named first. -/
theorem Read.told (read : file.Read) (alone : file.Alone) : file.Ordered ∧ ∃ told : List (Handle × Handle),
    file.tokens.statements = told.map (fun statement => (statement.1, some statement.2)) ∧
    (∀ statement ∈ told, ∃ a, file.tokens.Tells statement.2 a ∧ a.kind = .string) ∧
    file.imports.map (·.moduleName) = (importedNames file.tokens.spelling).eraseDups ∧
    ((importedNames file.tokens.spelling).Nodup → file.imports.map (fun i => (i.keyword, i.name)) = told) := by
  obtain ⟨settings, tree, path, id, content, source, opened, lexed, done⟩ := read.lexed
  have fresh := Grammar.sourceOf_fresh lexed
  have ordered := Grammar.readSource_ordered fresh done
  have tidy := ordered.listed.tidy
  have single := fun h a stored => alone.get? tidy (h := h) (a := a) stored
  obtain ⟨told, last, along, ended, tokens, imports, lone⟩ :=
    Grammar.start_along fresh (Grammar.sourceOf_untouched lexed) done (.inr single)
  rw [← tokens] at lone
  obtain ⟨statements, asked⟩ := along.final ended fresh.lone (tokens ▸ lone) (Grammar.sourceOf_words lexed)
    (Grammar.sourceOf_untouched lexed) fun h a stored => single h a (tokens ▸ stored)
  rw [← tokens] at statements asked
  have names : importedNames file.tokens.spelling =
      told.map (Grammar.State.asked (.first settings tree source (id + 1) opened)) := by
    rw [importedNames_spelling, statements, List.filterMap_map, ← List.filterMap_eq_map]
    refine List.filterMap_congr fun statement member => ?_
    obtain ⟨a, tells, _, same⟩ := asked statement member
    simp [Grammar.text_shown tells.1 tells.2, same]
  refine ⟨ordered, told, statements, fun statement member => ?_, ?_, fun nodup => ?_⟩
  · obtain ⟨a, tells, kind, _⟩ := asked statement member
    exact ⟨a, tells, kind⟩
  · rw [names, imports, along.names]
  · rw [imports]
    exact along.each (names ▸ nodup)

/-- A file that is read from words that include no other file has the modules that its import statements
name. -/
theorem ofSource_imports {settings : Settings} {tree : FileTree} {id : ChainId} {content : Bytes} {found : List Token}
    (done : ofSource settings tree id content = .ok file) (lexed : Lexer.tokens none content = .ok found)
    (alone : ∀ a ∈ found, a.kind ≠ .kwInclude) : file.imports.map (·.moduleName) =
      (importedNames ((found.filter fun a => !a.kind.isTrivia).map fun a => (a.kind, Grammar.shown a))).eraseDups := by
  obtain ⟨source, sourced, done⟩ := ofSource_done done
  have fresh := Grammar.sourceOf_fresh sourced
  have untouched := Grammar.sourceOf_untouched sourced
  have words := Grammar.sourceOf_rest sourced
  obtain rfl : found = source.tokens.tokens := Except.ok.inj (lexed.symm.trans (Grammar.sourceOf_tokens sourced))
  have unread : ∀ h ∈ source.rest, ∀ a, source.tokens.get? h = some a → a.kind ≠ .kwInclude := by
    intro h member a stored
    have listed : source.tokens.get? h ∈ source.rest.map source.tokens.get? := List.mem_map_of_mem member
    rw [words, stored] at listed
    obtain ⟨b, word, same⟩ := List.mem_map.mp listed
    exact Option.some.inj same ▸ alone b (List.mem_filter.mp word).1
  obtain ⟨told, last, along, ended, _, imports, _⟩ := Grammar.start_along fresh untouched done (.inl unread)
  rw [imports, along.names, Grammar.asked_words words untouched fresh.lone along ended fun a member =>
    alone a (List.mem_filter.mp member).1]

/-- If no statement names a module again, all of them are in the file. -/
theorem Read.stated (read : file.Read) (alone : file.Alone) (apart : (importedNames file.tokens.spelling).Nodup) :
    file.Stated := by
  obtain ⟨ordered, told, statements, tells, names, each⟩ := read.told alone
  have whole := each apart
  have known : file.tokens.statements = file.imports.map fun i => (i.keyword, some i.name) := by
    rw [statements, ← whole, List.map_map]
    rfl
  rw [eraseDups_nodup _ apart] at names
  have asked : file.imports.map (·.moduleName) = file.imports.map
      fun i => Text.trimChar '"' (file.tokens.text i.name) := by
    rw [names, importedNames_spelling, known, List.filterMap_map, ← List.filterMap_eq_map]
    rfl
  refine ⟨ordered, alone, known, fun i member => ?_, names ▸ apart⟩
  obtain ⟨a, tells, kind⟩ := tells (i.keyword, i.name) (whole ▸ List.mem_map_of_mem member)
  refine ⟨a, tells, kind, ?_⟩
  rw [← Grammar.text_shown tells.1 tells.2]
  exact (List.map_inj_left.mp asked i member).symm

end RuleFile

end YaraRules
