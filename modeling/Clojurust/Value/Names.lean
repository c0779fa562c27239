import Clojurust.Value.Number

/-!
# Names of symbols and keywords

The texts of symbols and keywords, and how they are read (`crates/cljrs-value/src/symbol.rs`,
`crates/cljrs-value/src/keyword.rs`).

* `splitNamespace`, `splitVersion`, `symbolParts` — the parts of a name;
* `Symbol.parse`, `Keyword.parse` — a name as a symbol and as a keyword.
-/

namespace Clojurust

/-- The part before the first slash and the part after it, if both have characters. -/
def splitNamespace (name : List Char) : Option (List Char) × List Char :=
  match name.takeWhile (· != '/'), name.dropWhile (· != '/') with
  | before@(_ :: _), _ :: after@(_ :: _) => (some before, after)
  | _, _ => (none, name)

/-- `is_commit_hash`: 7 to 40 hexadecimal digits. -/
def isCommitHash (text : List Char) : Bool :=
  7 ≤ text.length && text.length ≤ 40 &&
    text.all fun c => c.isDigit || ('a' ≤ c && c ≤ 'f') || ('A' ≤ c && c ≤ 'F')

/-- `split_version`: the part after the last `@`, if it is a commit hash. -/
def splitVersion (name : List Char) : List Char × Option (List Char) :=
  let candidate := (name.reverse.takeWhile (· != '@')).reverse
  match name.reverse.dropWhile (· != '@') with
  | _ :: base => if isCommitHash candidate then (base.reverse, some candidate) else (name, none)
  | [] => (name, none)

/-- The texts a symbol is made of. -/
structure SymbolParts where
  (namespace? : Option (List Char))
  name : List Char
  version : Option (List Char)

def symbolParts (text : List Char) : SymbolParts :=
  let (ns, name) := splitNamespace text
  ⟨ns, (splitVersion name).1, (splitVersion name).2⟩

namespace Symbol

def parse (text : String) : Symbol :=
  let parts := symbolParts text.toList
  ⟨parts.namespace?.map String.ofList, String.ofList parts.name, parts.version.map String.ofList⟩

/-- The text without the version. -/
def fullName (s : Symbol) : String :=
  match s.ns with
  | some ns => ns ++ "/" ++ s.name
  | none => s.name

end Symbol

namespace Keyword

/-- The text after the colon. -/
def parse (text : String) : Keyword :=
  let (ns, name) := splitNamespace text.toList
  ⟨ns.map String.ofList, String.ofList name⟩

def fullName (k : Keyword) : String :=
  match k.ns with
  | some ns => ns ++ "/" ++ k.name
  | none => k.name

end Keyword

end Clojurust
