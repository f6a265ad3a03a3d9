import YaraRules.Toml.Scalar

/-! TOML documents. A document is read statement by statement into a table, and is
refused as a whole if one of them cannot be read. -/

namespace YaraRules.Toml

/-- Passes over white space, line breaks and comments. -/
private def skipFiller : Nat → List Char → List Char
  | 0, cs => cs
  | fuel + 1, cs =>
    match skipBlanks cs with
    | '#' :: rest =>
      match newline? (rest.dropWhile isPlain) with
      | some rest => skipFiller fuel rest
      | none => '#' :: rest
    | rest =>
      match newline? rest with
      | some rest => skipFiller fuel rest
      | none => rest

private def filler (cs : List Char) : List Char := skipFiller cs.length cs

mutual

/-- A value in which arrays and tables nest at most `depth` deep. -/
def value? (depth : Nat) : Nat → List Char → Option (Value × List Char)
  | 0, _ => none
  | fuel + 1, cs =>
    match cs with
    | '"' :: _ | '\'' :: _ => (string? cs).map fun (text, rest) => (.string text, rest)
    | '[' :: rest =>
      match depth with
      | 0 => none
      | depth + 1 =>
        match filler rest with
        | ']' :: rest => some (.array [], rest)
        | rest => (items? depth fuel rest).map fun (items, rest) => (.array items, rest)
    | '{' :: rest =>
      match depth with
      | 0 => none
      | depth + 1 =>
        match skipBlanks rest with
        | '}' :: rest => some (.table [], rest)
        | rest => (pairs? depth fuel [] rest).map fun (entries, rest) =>
          (.table (Node.entriesToValues entries), rest)
    | 't' :: 'r' :: 'u' :: 'e' :: rest => some (.boolean true, rest)
    | 'f' :: 'a' :: 'l' :: 's' :: 'e' :: rest => some (.boolean false, rest)
    | _ => (datetime? cs).or (number? cs)

/-- One item at least, up to the bracket that closes the array. -/
def items? (depth : Nat) : Nat → List Char → Option (List Value × List Char)
  | 0, _ => none
  | fuel + 1, cs => do
    let (item, rest) ← value? depth fuel (filler cs)
    match filler rest with
    | ']' :: rest => return ([item], rest)
    | ',' :: rest =>
      match filler rest with
      | ']' :: rest => return ([item], rest)
      | rest =>
        let (items, rest) ← items? depth fuel rest
        return (item :: items, rest)
    | _ => none

/-- One pair at least, up to the brace that closes the table. -/
def pairs? (depth : Nat) : Nat → Entries → List Char → Option (Entries × List Char)
  | 0, _, _ => none
  | fuel + 1, entries, cs => do
    let ((path, key), rest) ← key? cs
    match rest with
    | '=' :: rest =>
      let (value, rest) ← value? depth fuel (skipBlanks rest)
      let entries ← entries.insert path key value .written
      match skipBlanks rest with
      | '}' :: rest => return (entries, rest)
      | ',' :: rest => pairs? depth fuel entries rest
      | _ => none
    | _ => none

end

/-- What follows the end of a line, which a comment may stand before. -/
private def lineEnd? (cs : List Char) : Option (List Char) :=
  let rest :=
    match skipBlanks cs with
    | '#' :: rest => rest.dropWhile isPlain
    | rest => rest
  if rest.isEmpty then some [] else newline? rest

/-- A document so far: its table and the path of the table that is open. -/
structure Reading where
  root : Entries := []
  current : List String := []

namespace Reading

private def addPair (reading : Reading) (path : List String) (key : String) (value : Value) :
    Option Reading := do
  let root ← reading.root.update .implied (fun origin entries =>
    entries.insert path key value origin) reading.current .written
  return { reading with root }

/-- Reads the statement that begins here, with the end of its line. -/
private def statement? (reading : Reading) (cs : List Char) : Option (Reading × List Char) :=
  match cs with
  | '[' :: '[' :: rest => do
    let ((path, key), rest) ← key? rest
    match rest with
    | ']' :: ']' :: rest =>
      return (⟨← reading.root.openNext path key, path ++ [key]⟩, ← lineEnd? rest)
    | _ => none
  | '[' :: rest => do
    let ((path, key), rest) ← key? rest
    match rest with
    | ']' :: rest =>
      return (⟨← reading.root.openTable path key, path ++ [key]⟩, ← lineEnd? rest)
    | _ => none
  | _ => do
    let ((path, key), rest) ← key? cs
    match rest with
    | '=' :: rest =>
      let (value, rest) ← value? (depthLimit - 1) (2 * rest.length + 2) (skipBlanks rest)
      return (← reading.addPair path key value, ← lineEnd? rest)
    | _ => none

/-- Reads statements to the end, in at most `fuel` steps. -/
private def statements? : Nat → Reading → List Char → Option Reading
  | 0, _, _ => none
  | fuel + 1, reading, cs =>
    match skipBlanks cs with
    | [] => some reading
    | '#' :: rest => do statements? fuel reading (← lineEnd? ('#' :: rest))
    | rest =>
      match newline? rest with
      | some rest => statements? fuel reading rest
      | none => do
        let (reading, rest) ← reading.statement? rest
        reading.statements? fuel rest

end Reading

/-- The table of a document. A byte order mark before it is passed over. -/
def read? (text : String) : Option (List (String × Value)) :=
  let cs :=
    match text.toList with
    | '\uFEFF' :: rest => rest
    | cs => cs
  (Reading.statements? (cs.length + 1) {} cs).map fun reading =>
    Node.entriesToValues reading.root

end YaraRules.Toml
