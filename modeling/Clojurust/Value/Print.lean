import Clojurust.Value.Compare

/-!
# Printing

`pr_str` of `crates/cljrs-value/src/value.rs`: the text of a value, to be read again (`readably`) or
to be looked at.

* `Formats` — what the standard library and other crates print;
* `prStr`, `prStr_eq` — the text of a value and its recursion equation.
-/

namespace Clojurust

open OpenRecursion

structure Formats where
  /-- `d.fract() == 0.0 && d.abs() < 1e15`. -/
  isShortWhole : F64 → Bool
  /-- A double with one digit after the point. -/
  fixed : F64 → String
  /-- A double as it is displayed. -/
  double : F64 → String
  /-- A decimal as it is displayed. -/
  decimal : BigDecimal → String
  uuid : BitVec 128 → String
  /-- `format_rfc3339_millis`. -/
  instant : Int64 → String

namespace Value

section PrStr

variable (fmt : Formats) (readably : Bool)

/-- Infinities and NaNs have their own texts. -/
def doubleText (x : F64) : String :=
  if x.magnitude = F64.infMagnitude then
    if readably then (if x.isNeg then "##-Inf" else "##Inf")
    else (if x.isNeg then "-Infinity" else "Infinity")
  else if x.isNaN then (if readably then "##NaN" else "NaN")
  else if fmt.isShortWhole x then fmt.fixed x
  else fmt.double x

/-- A decimal keeps its scale: zeros that the text leaves out are added. -/
def decimalText (d : BigDecimal) : String :=
  let s := fmt.decimal d
  let digits :=
    if ¬ s.toList.contains '.' ∧ 0 < d.scale then
      s ++ "." ++ String.ofList (List.replicate d.scale.toNat '0')
    else s
  if readably then digits ++ "M" else digits

/-- A character: four of them have a name. -/
def charText (c : Char) : List Char :=
  if readably then
    '\\' :: (if c = '\n' then ['n', 'e', 'w', 'l', 'i', 'n', 'e']
      else if c = '\t' then ['t', 'a', 'b']
      else if c = ' ' then ['s', 'p', 'a', 'c', 'e']
      else if c = '\r' then ['r', 'e', 't', 'u', 'r', 'n']
      else [c])
  else [c]

def escapeChar (c : Char) : List Char :=
  if c = '"' then ['\\', '"']
  else if c = '\\' then ['\\', '\\']
  else if c = '\n' then ['\\', 'n']
  else if c = '\t' then ['\\', 't']
  else if c = '\r' then ['\\', 'r']
  else [c]

def strText (s : String) : List Char :=
  if readably then '"' :: (s.toList.flatMap escapeChar ++ ['"']) else s.toList

/-- A literal with a tag in front of a quoted text. -/
def taggedText (tag text : String) : List Char :=
  if readably then ("#" ++ tag ++ " \"" ++ text ++ "\"").toList else text.toList

/-- Items with a blank between them. -/
def itemsText (f : Value → List Char) (items : List Value) : List Char :=
  [' '].intercalate (items.map f)

/-- Entries with a comma and a blank between them. -/
def entriesText (f : Value → List Char) (entries : List (Value × Value)) : List Char :=
  [',', ' '].intercalate (entries.map fun entry => f entry.1 ++ ' ' :: f entry.2)

/-- The loop over the tail of a cons cell. -/
def tailText (f : Value → List Char) : Value → List Char
  | nil => []
  | list items => items.flatMap fun item => ' ' :: f item
  | cons head tail => ' ' :: f head ++ tailText f tail
  | lazySeq _ realized => tailText f realized
  | other => ' ' :: '.' :: ' ' :: f other

/-- The body of `pr_str`. -/
def prStrStep (f : Value → List Char) : Value → List Char
  | withMeta inner _ => f inner
  | reduced inner => ['#', 'r', 'e', 'd', 'u', 'c', 'e', 'd', ' '] ++ f inner
  | nil => ['n', 'i', 'l']
  | bool b => if b then ['t', 'r', 'u', 'e'] else ['f', 'a', 'l', 's', 'e']
  | long n => (toString n.toInt).toList
  | double x => (doubleText fmt readably x).toList
  | bigInt n => (toString n).toList ++ (if readably then ['N'] else [])
  | bigDecimal d => (decimalText fmt readably d).toList
  | ratio r => (displayRatio r).toList
  | uuid u => taggedText readably "uuid" (fmt.uuid u)
  | instant ms => taggedText readably "inst" (fmt.instant ms)
  | char c => charText readably c
  | str s => strText readably s
  | symbol s => s.versionedName.toList
  | keyword k => k.display.toList
  | list items => '(' :: (itemsText f items ++ [')'])
  | vector items => '[' :: (itemsText f items ++ [']'])
  | map m => '{' :: (entriesText f m.iter ++ ['}'])
  | set s => '#' :: '{' :: (itemsText f s.iter ++ ['}'])
  | queue front rear => ['#', 'q', 'u', 'e', 'u', 'e', ' ', '('] ++ (itemsText f (front ++ rear) ++ [')'])
  | lazySeq _ realized => f realized
  | cons head tail => '(' :: (f head ++ tailText f tail ++ [')'])
  | typeInstance typeTag fields =>
    '#' :: (typeTag.toList ++ '{' :: (entriesText f fields.iter ++ ['}']))

def prStr (v : Value) : List Char := fix size (prStrStep fmt readably) [] v

variable {fmt readably}

variable {f g : Value → List Char}

theorem itemsText_congr {items : List Value}
    (h : ∀ x ∈ items, f x = g x) : itemsText f items = itemsText g items := by
  rw [itemsText, List.map_congr_left h]
  rfl

attribute [local simp] children

theorem tailText_congr {v : Value}
    (h : ∀ x : Value, x.size ≤ v.size → f x = g x) : tailText f v = tailText g v := by
  fun_induction tailText f v with
  | case1 => rfl
  | case2 items =>
    refine List.flatMap_congr ?_
    intro x hx
    rw [h x (size_lt_of_mem (v := list items) hx).le]
  | case3 head tail ih =>
    have hhead := size_lt_of_mem (v := cons head tail) (c := head) (by simp)
    have htail := size_lt_of_mem (v := cons head tail) (c := tail) (by simp)
    rw [tailText, h head hhead.le, ih fun x hx => h x (hx.trans htail.le)]
  | case4 cell realized ih =>
    have hlt := size_lt_of_mem (v := lazySeq cell realized) (c := realized) (by simp)
    exact ih fun x hx => h x (hx.trans hlt.le)
  | case5 other h1 h2 h3 h4 =>
    rw [tailText.eq_5 _ _ h1 h2 h3 h4, h other le_rfl]

theorem prStrStep_decreasing : Decreasing size (prStrStep fmt readably) := by
  intro f g v h
  have hchild : ∀ c ∈ v.children, f c = g c := fun c hc => h c (size_lt_of_mem hc)
  have hmap : ∀ m : MapValue Value Value, (∀ c ∈ m.members, f c = g c) →
      entriesText f m.iter = entriesText g m.iter := by
    intro m hm
    have hentry : ∀ e ∈ m.iter, f e.1 ++ ' ' :: f e.2 = g e.1 ++ ' ' :: g e.2 := by
      intro e he
      have hmem := MapValue.mem_members he
      rw [hm _ hmem.1, hm _ hmem.2]
    rw [entriesText, List.map_congr_left hentry]
    rfl
  cases v with
  | list items | vector items =>
    have hitems : itemsText f items = itemsText g items := itemsText_congr hchild
    rw [prStrStep, prStrStep, hitems]
  | queue front rear =>
    have hitems : itemsText f (front ++ rear) = itemsText g (front ++ rear) := itemsText_congr hchild
    rw [prStrStep, prStrStep, hitems]
  | set s =>
    have hitems : itemsText f s.iter = itemsText g s.iter :=
      itemsText_congr fun x hx => hchild x (SetValue.mem_members hx)
    rw [prStrStep, prStrStep, hitems]
  | map m => rw [prStrStep, prStrStep, hmap m hchild]
  | typeInstance typeTag fields => rw [prStrStep, prStrStep, hmap fields hchild]
  | cons head tail =>
    have htail := size_lt_of_mem (v := cons head tail) (c := tail) (by simp)
    have htext : tailText f tail = tailText g tail :=
      tailText_congr fun x hx => h x (hx.trans_lt htail)
    simp only [prStrStep, hchild head (by simp), htext]
  | withMeta inner => exact hchild inner (by simp)
  | reduced inner => simp only [prStrStep, hchild inner (by simp)]
  | lazySeq cell realized => exact hchild realized (by simp)
  | _ => rfl

theorem prStr_eq (v : Value) : v.prStr fmt readably = prStrStep fmt readably (prStr fmt readably) v :=
  fix_eq prStrStep_decreasing v

end PrStr

end Value

end Clojurust
