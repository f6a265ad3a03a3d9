import YaraRules.Proofs.NameListings
import YaraRules.Proofs.ReadRuleFrames

/-! Words of a rule while it is read: its modifiers, its tags and the names of its strings.
Each is compared with those before it when it is read. What was read stays as it is while
the source is read on, so words that differed then still differ when the rule ends. -/

namespace YaraRules.Grammar

open TokenStream (Plain)

/-- No token that is still to be read names a symbol. -/
def State.Unnamed (s : State) : Prop := ∀ h ∈ s.source.rest, ∀ a, s.source.tokens.get? h = some a → Raw a

variable {l : Ledger} {roles : List Role} {others : List Handle} {s s' : State} {given : List Handle}

theorem Onward.get?_waiting (onward : Onward [] given s s') (apart : s.source.rest.Nodup) {h : Handle}
    (waits : h ∈ s'.source.rest) : h ∈ s.source.rest ∧ s'.source.tokens.get? h = s.source.tokens.get? h := by
  obtain ⟨taken, rest, _, others⟩ := onward.read
  rw [rest] at apart
  have outside : h ∉ taken := fun inside => List.disjoint_of_nodup_append apart inside waits
  exact ⟨rest ▸ List.mem_append_right _ waits, others h (by simpa using outside)⟩

theorem Onward.row_waiting (onward : Onward [] given s s') (apart : s.source.rest.Nodup) :
    ∃ front, s.source.rest.map s.source.tokens.get? = front ++ s'.source.rest.map s'.source.tokens.get? := by
  obtain ⟨taken, rest, _⟩ := onward.read
  refine ⟨taken.map s.source.tokens.get?, ?_⟩
  rw [rest, List.map_append]
  exact congrArg _ (List.map_congr_left fun h waits => (onward.get?_waiting apart waits).2.symm)

theorem State.Unnamed.onward (unnamed : s.Unnamed) (apart : s.source.rest.Nodup) (onward : Onward [] given s s') :
    s'.Unnamed := by
  intro h member a stored
  obtain ⟨waits, same⟩ := onward.get?_waiting apart member
  exact unnamed h waits a (same.symm.trans stored)

theorem Linking.unread_nodup (link : Linking l roles others s) : s.source.rest.Nodup :=
  (List.nodup_append.mp link.apart).2.1

/-! ### What lasts while the source is read on -/

theorem Onward.get?_read (onward : Onward [] given s s') {h : Handle} (read : h ∉ s.source.rest) :
    h ∉ s'.source.rest ∧ s'.source.tokens.get? h = s.source.tokens.get? h := by
  obtain ⟨taken, rest, _, others⟩ := onward.read
  obtain ⟨early, late⟩ : h ∉ taken ∧ h ∉ s'.source.rest := by simpa [rest] using read
  exact ⟨late, others h (by simpa using early)⟩

/-- Holds of what comes after a state of which it holds. -/
def Lasting (holds : State → Prop) : Prop :=
  ∀ {s s' : State} {given : List Handle}, Onward [] given s s' → holds s → holds s'

/-- The state comes after one with a property, and the tokens given were read since. -/
def After (holds : State → Prop) (given : List Handle) (s : State) : Prop :=
  ∃ before, holds before ∧ Onward [] given before s

theorem After.start {holds : State → Prop} (now : holds s) : After holds [] s := ⟨s, now, .refl s (List.nil_subset _)⟩

theorem After.now {holds : State → Prop} (after : After holds given s) (lasting : Lasting holds) : holds s := by
  obtain ⟨before, held, onward⟩ := after
  exact lasting onward held

theorem After.step {α : Type} {holds pre : State → Prop} {post : α → State → Prop} {step : Parse α}
    {row : α → List Handle} (calm : Calm given step row) (ensures : Ensures pre step post) : Ensures
    (fun s => After holds given s ∧ pre s) step fun a s => After holds (row a ++ given) s ∧ post a s := by
  rintro s a s' done ⟨⟨before, held, first⟩, now⟩
  obtain ⟨around, nesting, settled, taken, rest, known, others⟩ := calm.onward s a s' done
  have wider : Onward (given ++ []) (row a ++ given) s s' := by
    rw [List.append_nil]
    exact ⟨around, nesting, settled, taken, rest, List.append_subset.mpr ⟨known, List.subset_append_left _ _⟩, others⟩
  exact ⟨⟨before, held, first.trans wider⟩, ensures s a s' done now⟩

/-- A token that was read is like this. -/
def Seen (like : Token → Prop) (h : Handle) (s : State) : Prop :=
  h ∉ s.source.rest ∧ ∃ a, s.source.tokens.get? h = some a ∧ like a

theorem Seen.lasting (like : Token → Prop) (h : Handle) : Lasting (Seen like h) := by
  rintro s s' given onward ⟨read, a, stored, holds⟩
  obtain ⟨read', same⟩ := onward.get?_read read
  exact ⟨read', a, same.trans stored, holds⟩

theorem Linking.seen {h : Handle} (link : Linking l roles (h :: others) s) : Seen Plain h s :=
  ⟨fun later => (List.nodup_cons.mp link.apart).1 (List.mem_append_right _ later), (link.loose h (by simp)).plain⟩

/-! ### Words that differ -/

/-- The text of a token that is written by its own literal. -/
def shown (a : Token) : String := TokenStream.writtenAs a.kind a.literal.text

theorem text_shown {tokens : TokenStream} {h : Handle} {a : Token} (stored : tokens.get? h = some a) (plain : Plain a) :
    tokens.text h = shown a := by
  rw [TokenStream.text_eq _ stored, TokenStream.textOf_plain _ plain]
  rfl

/-- Words were read that are not like each other. -/
structure Differ {α : Type} (look : Token → α) (words : List Handle) (s : State) : Prop where
  read : ∀ h ∈ words, Seen Plain h s
  distinct : (words.map fun h => (s.source.tokens.get? h).map look).Nodup

namespace Differ

variable {α : Type} {look : Token → α} {words : List Handle}

theorem nil : Differ look [] s := ⟨nofun, List.nodup_nil⟩

theorem lasting (look : Token → α) (words : List Handle) : Lasting (Differ look words) := by
  rintro s s' given onward ⟨read, distinct⟩
  refine ⟨fun h member => Seen.lasting Plain h onward (read h member), ?_⟩
  rwa [List.map_congr_left fun h member => congrArg (Option.map look) (onward.get?_read (read h member).1).2]

theorem add (differ : Differ look words s) {h : Handle} (seen : Seen Plain h s)
    (fresh : ∀ k ∈ words, ∀ a b, s.source.tokens.get? h = some a → s.source.tokens.get? k = some b → look b ≠ look a) :
    Differ look (words ++ [h]) s := by
  have ⟨_, a, stored, _⟩ := seen
  refine ⟨fun k member => ?_, ?_⟩
  · rcases List.mem_append.mp member with old | new
    · exact differ.read k old
    · exact List.mem_singleton.mp new ▸ seen
  · rw [List.map_append]
    refine List.nodup_append.mpr ⟨differ.distinct, List.pairwise_singleton _ _, fun _ old _ new same => ?_⟩
    obtain ⟨k, member, rfl⟩ := List.mem_map.mp old
    obtain ⟨_, b, held, _⟩ := differ.read k member
    obtain rfl : _ = (s.source.tokens.get? h).map look := by simpa using new
    exact fresh k member a b stored held (by simpa [stored, held] using same)

/-- Tokens that differ in what they show have different texts. -/
theorem texts (differ : Differ shown words s) : (words.map s.source.tokens.text).Nodup := by
  refine List.Nodup.of_map some ?_
  rw [List.map_map]
  refine (List.map_congr_left fun h member => ?_) ▸ differ.distinct
  obtain ⟨_, a, stored, plain⟩ := differ.read h member
  simp [stored, text_shown stored plain]

end Differ

/-! ### Modifiers -/

/-- Modifiers of different kinds were read. -/
def Marked (words : List (TokenKind × Handle)) (s : State) : Prop :=
  Differ (·.kind) (words.map (·.2)) s ∧ ∀ word ∈ words, Seen (·.kind = word.1) word.2 s

theorem Marked.lasting (words : List (TokenKind × Handle)) : Lasting (Marked words) :=
  fun onward marked => ⟨Differ.lasting _ _ onward marked.1, fun word member =>
    Seen.lasting _ _ onward (marked.2 word member)⟩

theorem Marked.add {words : List (TokenKind × Handle)} {kind : TokenKind} {h : Handle} (marked : Marked words s)
    (seen : Seen Plain h s) (same : Seen (·.kind = kind) h s)
    (fresh : ∀ word ∈ words, word.1 ≠ kind) : Marked (words ++ [(kind, h)]) s := by
  refine ⟨?_, fun word member => ?_⟩
  · obtain ⟨_, a, stored, same⟩ := same
    rw [List.map_append]
    refine marked.1.add seen fun k member b c stored' held equal => ?_
    obtain ⟨word, listed, rfl⟩ := List.mem_map.mp member
    obtain ⟨_, d, held', kind'⟩ := marked.2 word listed
    obtain rfl := Option.some.inj (held.symm.trans held')
    obtain rfl := Option.some.inj (stored.symm.trans stored')
    exact fresh word listed (kind'.symm.trans (equal.trans same))
  · rcases List.mem_append.mp member with old | new
    · exact marked.2 word old
    · obtain rfl := List.mem_singleton.mp new
      exact same

theorem ruleModifiers_differ : ∀ bound before, Ensures (fun s => Marked before s ∧ Linking l roles others s)
    (ruleModifiers bound before)
    fun words s => Differ (·.kind) words s ∧ Linking l roles others s
  | 0, before => .pure fun s known => ⟨known.1.1, known.2⟩
  | bound + 1, before => by
    refine .look (fun _ => rfl) fun next => ?_
    cases next with
    | none => exact .pure fun s known => ⟨known.2.1.1, known.2.2⟩
    | some kind =>
      refine .ite (fun _ => ?_) fun _ => .pure fun s known => ⟨known.2.1.1, known.2.2⟩
      refine .consider (fun s => After (Marked before) [] s ∧ Linking l roles others s ∧ Next kind s)
        (fun s ⟨next, marked, link⟩ => ⟨.start marked, link, next⟩) (.bind (After.step advance_calm seen_ensures)
          fun token => ?_)
      refine .ite (fun _ => .never fun s a s' done => ?_) fun fresh =>
        .consider _ (fun s known => ?_) (ruleModifiers_differ bound _)
      · obtain ⟨_, _, _, run⟩ := bind_done done
        exact (never_fail _ _).bind _ _ _ _ run
      · obtain ⟨after, link, a, stored, same⟩ := known
        have marked := (after.now (Marked.lasting before)).add link.seen ⟨link.seen.1, a, stored, same⟩
          fun word member same => fresh ?_
        · exact ⟨marked, link.fewer (List.sublist_cons_self _ _)⟩
        exact List.any_eq_true.mpr ⟨word, member, by simpa using same⟩

/-! ### Tags -/

private theorem tagsAfter_differ : ∀ bound before, Ensures (fun s => Differ shown before s ∧ Linking l roles others s)
    (tagsAfter bound before)
    fun words s => Differ shown words s ∧ Linking l roles others s
  | 0, before => .pure fun s known => known
  | bound + 1, before => by
    refine .skip (fun _ => rfl) fun next => .ite (fun _ => ?_) fun _ => .pure fun s known => known
    refine .consider (fun s => After (Differ shown before) [] s ∧ Linking l roles others s) (fun s known =>
      ⟨.start known.1, known.2⟩) ?_
    refine .bind (After.step advance_calm advance_ensures) fun token => ?_
    refine .bind (After.step (refine_calm _ (by simp)) kind_ensures) fun _ => .look (fun _ => rfl) fun tokens => ?_
    refine .ite (fun _ => .never ((never_fail _ _).bind _)) fun fresh =>
      .consider _ (fun s known => ?_) (tagsAfter_differ bound _)
    obtain ⟨rfl, after, link, a, stored, kind, plain⟩ := known
    have differ := after.now (Differ.lasting shown before)
    refine ⟨differ.add link.seen fun k member b c stored' held same =>
      fresh ?_, link.fewer (List.sublist_cons_self _ _)⟩
    obtain rfl := Option.some.inj (stored.symm.trans stored')
    obtain ⟨_, d, held', plain'⟩ := differ.read k member
    obtain rfl := Option.some.inj (held.symm.trans held')
    exact List.any_eq_true.mpr ⟨k, member, by simpa [text_shown held plain', text_shown stored plain] using same⟩

theorem tags_differ : Ensures (Linking l roles others) tags fun found s =>
    (Differ shown found.2 s ∧ (found.1.isSome ↔ found.2 ≠ [])) ∧ Linking l roles others s := by
  refine .bind (accept_links _).passes fun colon => ?_
  cases colon with
  | none => exact .pure fun s link => ⟨⟨.nil, by simp⟩, link⟩
  | some colon =>
    refine .skip (fun _ => rfl) fun bound => ?_
    refine .bind (.consider _ (fun s link => ⟨.nil, link⟩) (tagsAfter_differ bound [])) fun words => ?_
    refine .ite (fun _ => .never ((never_unexpected _).bind _)) fun some_ => .pure fun s known =>
      ⟨⟨known.1, ?_⟩, known.2⟩
    simpa using some_

/-! ### Names of strings -/

private theorem expect_seen (kind : TokenKind) : Ensures (fun s => s.Unnamed ∧ Linking l roles others s)
    (expect kind) fun h s => Seen (fun a => Plain a ∧ a.kind = kind ∧ Raw a) h s := by
  refine .look (fun _ => rfl) fun next => .ite (fun same => ?_) fun _ => .never (never_unexpected _)
  rintro s h s' done ⟨peeked, unnamed, link⟩
  have next : Next kind s := peeked.trans (by simpa using same)
  obtain ⟨link', a, stored, kind⟩ := seen_ensures s h s' done ⟨link, next⟩
  obtain ⟨read, b, held, plain⟩ := link'.seen
  obtain rfl := Option.some.inj (stored.symm.trans held)
  obtain ⟨rest, began, rfl⟩ := advance_done done
  exact ⟨read, a, stored, plain, kind, unnamed h (by simp [began]) a stored⟩

/-- A token that was read is a text. -/
def Texted (h : Handle) (s : State) : Prop := Seen (fun a => a.literal.asText?.isSome) h s

theorem expect_texted {kind : TokenKind} (name : kind = .identifier ∨ kind = .stringName) :
    Ensures (fun s => s.Unnamed ∧ Linking l roles others s)
    (expect kind) fun h s => Texted h s ∧ Linking l roles (h :: others) s := by
  intro s h s' done known
  obtain ⟨read, a, stored, _, same, raw⟩ := expect_seen kind s h s' done known
  exact ⟨⟨read, a, stored, raw.text (same ▸ name)⟩, expect_ensures kind s h s' done known.2⟩

theorem refine_texted {h : Handle} (kind : TokenKind) : Ensures (fun s => Texted h s ∧ Linking l roles (h :: others) s)
    (refine h kind) fun _ s => Texted h s ∧ Linking l roles (h :: others) s := by
  have text : Ensures (Texted h) (refine h kind) fun _ => Texted h := .modify fun s known => by
    obtain ⟨read, a, stored, text⟩ := known
    refine ⟨read, { a with kind }, ?_, text⟩
    show (s.source.tokens.setKind h _).get? h = _
    rw [TokenStream.setKind, TokenStream.get?_modify, if_pos rfl, stored]
    rfl
  have link : Ensures (Linking l roles (h :: others)) (refine h kind) fun _ => Linking l roles (h :: others) :=
    modify_ensures fun _ own => own
  exact fun s u s' done known => ⟨text s u s' done known.1, link s u s' done known.2⟩

/-- The name of a string is a text that begins with a sigil. -/
theorem stringDefinition_sigil : Ensures (fun s => s.Unnamed ∧ Linking l roles others s) stringDefinition
    fun string s => (s.source.tokens.text string.id).toList.head? = some '$' ∧ Texted string.id s := by
  let named (a : Token) : Prop := Plain a ∧ (shown a).toList.head? = some '$' ∧ a.literal.asText?.isSome
  have pass {h : Handle} {α : Type} {step : Parse α} {row : α → List Handle} (calm : Calm [] step row) :
      Ensures (Seen named h) step fun _ => Seen named h :=
        fun s a s' done => Seen.lasting named h (calm.onward s a s' done)
  refine .bind (expect_seen _) fun id => .bind (m := fun _ => Seen named id) (.modify ?_) fun _ => ?_
  · rintro s ⟨read, a, stored, plain, kind, raw⟩
    refine ⟨read, { a with kind := .stringDefinition }, ?_, plain, raw.sigil kind, raw.text (.inr kind)⟩
    show (s.source.tokens.setKind id _).get? id = _
    rw [TokenStream.setKind, TokenStream.get?_modify, if_pos rfl, stored]
    rfl
  refine .bind (pass (expect_calm _)) fun assign => .bind (pass stringContent_calm) fun content =>
    .skip (fun _ => rfl) fun bound => ?_
  refine .bind (pass (modifiers_calm content bound [])) fun modifiers => .pure fun s seen => ?_
  obtain ⟨read, a, stored, plain, sigil, text⟩ := seen
  refine ⟨?_, read, a, stored, text⟩
  rwa [text_shown stored plain]

end YaraRules.Grammar
