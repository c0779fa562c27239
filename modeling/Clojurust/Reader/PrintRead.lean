import Clojurust.Reader.Printed
import Clojurust.Reader.Total

/-!
# Printing and reading

Data that is printed, parsed as one form and converted to a value again.

* `ReadsAs` — a text is parsed as one form, whatever closes it, or rejected;
* `wp_parseSeqForms` — the forms of a collection, with the blanks in front of them;
* `Datum` — the data that can be printed to be read, `Illegible` — it holds a character whose
  literal is not read back;
* `print_read_round_trip_iff` — what is read is equal to what was printed, exactly when all of it is
  legible.
-/

namespace Clojurust.Reader

open StateExcept Builtins List Value

variable {p : Platform}

/-! ## Lookahead -/

/-- Neither the end of the text nor a closing bracket. -/
def Token.opens : Token → Bool
  | .eof | .rParen | .rBracket | .rBrace => false
  | _ => true

variable {tok : Token} {kind : FormKind}

theorem peekTok_fill {l l' : Lexer} {span : Span} (h : nextToken p l = .ok (tok, span) l') :
    peekTok p ⟨l, none⟩ = .ok tok ⟨l', some (tok, span)⟩ := by
  have hfill : fill p ⟨l, none⟩ = .ok () ⟨l', some (tok, span)⟩ := by simp only [fill, h]
  have run_get : (get : Parse Parser) ⟨l', some (tok, span)⟩ =
      .ok ⟨l', some (tok, span)⟩ ⟨l', some (tok, span)⟩ := rfl
  rw [peekTok, peekPair, bind_assoc, run_bind hfill, bind_assoc, run_bind run_get]
  rfl

theorem peekTok_fail {l l' : Lexer} {e : Raised} (h : nextToken p l = .error e l') :
    peekTok p ⟨l, none⟩ = .error e ⟨l', none⟩ := by
  have hfill : fill p ⟨l, none⟩ = .error e ⟨l', none⟩ := by simp only [fill, h]
  rw [peekTok, peekPair, bind_assoc, run_bind_error hfill]

/-! ## Forms and their texts -/

/-- The form has been read, and the text that follows it is left. -/
def FormRead (rest : List Char) (Q : Form → Prop) (r : Option Form) (s : Parser) : Prop :=
  ∃ form l, r = some form ∧ s = ⟨l, none⟩ ∧ Small l ∧ l.rest = rest ∧ Q form

/-- A text is read as a form with `Q` if it is good, and rejected otherwise. The parser is given its
first token. -/
def ReadsAs (p : Platform) (n : Nat) (text : List Char) (good : Prop) (Q : Form → Prop) : Prop :=
  ∀ (l : Lexer) (rest : List Char), Small l → l.rest = text ++ rest → Closes rest →
    (∃ e l', nextToken p l = .error e l' ∧ ¬ good) ∨
    ∃ tok span l', nextToken p l = .ok (tok, span) l' ∧ tok.opens = true ∧
      wp (parseRaw p n) (fun r s => good ∧ FormRead rest Q r s) (fun _ _ => ¬ good)
        ⟨l', some (tok, span)⟩

/-- The forms of one token. -/
def atomKind : Token → Option FormKind
  | .nil => some .nil
  | .bool b => some (.bool b)
  | .int i => some (.int i)
  | .bigInt s => some (.bigInt s)
  | .ratio s => some (.ratio s)
  | .char c => some (.char c)
  | .str s => some (.str s)
  | .symbol s => some (.symbol s)
  | .keyword s => some (.keyword s)
  | _ => none

theorem parseRaw_atom {n : Nat} (h : atomKind tok = some kind) (l : Lexer) (span : Span) :
    parseRaw p (n + 1) ⟨l, some (tok, span)⟩ = .ok (some (.mk kind span)) ⟨l, none⟩ := by
  have hatom : parseAtom p kind span ⟨l, some (tok, span)⟩ =
      .ok (some (.mk kind span)) ⟨l, none⟩ := by
    rw [parseAtom, run_bind (bump_run rfl)]
    rfl
  cases tok <;> first | (cases h; exact hatom) | cases h

theorem readsAs_atom {n : Nat} {text : List Char} {good : Prop}
    {Q : Form → Prop} (hlexes : Lexes p text tok) (hkind : atomKind tok = some kind) (hgood : good)
    (hQ : ∀ span, Q (.mk kind span)) : ReadsAs p (n + 1) text good Q := by
  intro l rest hl htext hrest
  obtain ⟨span, l', htok, hsmall, hrest'⟩ := hlexes l rest hl htext hrest
  refine .inr ⟨tok, span, l', htok, ?_, ?_⟩
  · cases tok <;> first | rfl | cases hkind
  · rw [wp, parseRaw_atom hkind]
    exact ⟨hgood, _, l', rfl, rfl, hsmall, hrest', hQ span⟩

/-! ## Sequences of forms -/

section Items

variable {α : Type} (text : α → List Char)

/-- Texts with the blanks in front of each. -/
def itemsChars (items : List (List Char × α)) : List Char :=
  items.flatMap fun item => item.1 ++ text item.2

/-- Every item but the first has blanks in front of it. -/
@[grind cases]
structure Spaced (items : List (List Char × α)) : Prop where
  blank : ∀ item ∈ items, ∀ c ∈ item.1, c = ' ' ∨ c = ','
  apart : ∀ item ∈ items.tail, item.1 ≠ []

variable {text}

variable {item : List Char × α} {items : List (List Char × α)}

theorem Spaced.tail (h : Spaced (item :: items)) : Spaced items :=
  ⟨fun i hi => h.blank i (.tail _ hi), fun i hi => h.apart i (mem_of_mem_tail hi)⟩

theorem Spaced.closes
    (h : Spaced (item :: items)) {c : Char} (hc : c ∈ [')', ']', '}']) (rest : List Char) :
    Closes (itemsChars text items ++ c :: rest) := by
  cases items with
  | nil =>
    have hmem : ∀ c ∈ [')', ']', '}'], c ∈ [' ', ',', ')', ']', '}'] := by decide
    exact closes_cons rest (hmem c hc)
  | cons next =>
    obtain ⟨blanks, a⟩ := next
    cases blanks with
    | nil => exact absurd rfl (h.apart ([], a) (.head _))
    | cons b blanks =>
      have hb := h.blank (b :: blanks, a) (by simp) b (.head _)
      refine closes_cons _ ?_
      rcases hb with rfl | rfl <;> decide

variable {good : α → Prop} {Q : α → Form → Prop}

/-- All forms up to the closing bracket have been read. -/
def FormsRead (rest : List Char) (Q : α → Form → Prop) (items : List (List Char × α))
    (forms : List Form) (r : List Form × Span) (s : Parser) : Prop :=
  ∃ read l, r.1 = forms ++ read ∧ s = ⟨l, none⟩ ∧ Small l ∧ l.rest = rest ∧
    List.Forall₂ (fun item form => Q item.2 form) items read

/-- **The loop over the forms of a collection**, by induction on the items that are left. -/
theorem wp_parseSeqForms {n : Nat} {closing : Token} {c : Char} {rest : List Char}
    (hclosing : Lexes p [c] closing) (hclosed : closing.opens = false) (heof : closing ≠ .eof)
    (hc : c ∈ [')', ']', '}']) (hrest : Closes rest) (openSpan : Span) (name : String) :
    ∀ (items : List (List Char × α)) {k : Nat} {forms : List Form} {l : Lexer}, items.length < k →
    Spaced items → (∀ item ∈ items, ReadsAs p n (text item.2) (good item.2) (Q item.2)) → Small l →
    l.rest = itemsChars text items ++ c :: rest →
    wp (parseSeqForms p (parseRaw p n) closing openSpan name k forms)
      (fun r s => (∀ item ∈ items, good item.2) ∧ FormsRead rest Q items forms r s)
      (fun _ _ => ¬ ∀ item ∈ items, good item.2) ⟨l, none⟩
  | [], k + 1, forms, l, _, _, _, hl, htext => by
    obtain ⟨span, l', htok, hsmall, hrest'⟩ := hclosing l rest hl htext hrest
    rw [wp, parseSeqForms, run_bind (peekTok_fill htok), if_neg heof, if_pos rfl,
      run_bind (bump_run rfl)]
    exact ⟨by simp, [], l', (append_nil _).symm, rfl, hsmall, hrest', .nil⟩
  | item :: items, k + 1, forms, l, hk, hspaced, hreads, hl, htext => by
    have hsplit : l.rest = item.1 ++ (text item.2 ++ (itemsChars text items ++ c :: rest)) := by
      rw [htext, itemsChars, flatMap_cons]
      simp only [append_assoc]
      rfl
    obtain ⟨l1, hl1, hrest1, hskip⟩ :=
      nextToken_blanks (p := p) hl hsplit (hspaced.blank item (.head _))
    rw [forall_mem_cons] at hreads ⊢
    rcases hreads.1 l1 _ hl1 hrest1 (hspaced.closes hc rest) with
      ⟨e, l2, herr, hbad⟩ | ⟨tok, span, l2, htok, hopens, hraw⟩
    · rw [← hskip] at herr
      rw [wp, parseSeqForms, run_bind_error (peekTok_fail herr)]
      exact fun h => hbad h.1
    · rw [← hskip] at htok
      have hne : ∀ t : Token, t.opens = false → tok ≠ t := by
        rintro t ht rfl
        rw [hopens] at ht
        cases ht
      have hstep : parseSeqForms p (parseRaw p n) closing openSpan name (k + 1) forms ⟨l, none⟩ =
          (parseRaw p n >>= fun read => parseSeqForms p (parseRaw p n) closing openSpan name k
            (read.elim forms fun form => forms ++ [form])) ⟨l2, some (tok, span)⟩ := by
        rw [parseSeqForms, run_bind (peekTok_fill htok), if_neg (hne .eof rfl)]
        refine (congrFun (if_neg (hne closing hclosed)) _).trans ?_
        refine congrFun (bind_congr fun read => ?_) _
        cases read <;> rfl
      rw [wp, hstep]
      refine wp_seq_weaken hraw ?_ fun _ _ hbad h => hbad h.1
      rintro r s ⟨hgood, form, l3, rfl, rfl, hl3, hrest3, hQ⟩
      refine wp_weaken (wp_parseSeqForms hclosing hclosed heof hc hrest openSpan name items
        (Nat.lt_of_succ_lt_succ hk) hspaced.tail hreads.2 hl3 hrest3) ?_ ?_
      · rintro r s ⟨hall, read, l4, hr, rfl, hl4, hrest4, hforms⟩
        rw [Option.elim_some, append_assoc] at hr
        exact ⟨⟨hgood, hall⟩, form :: read, l4, hr, rfl, hl4, hrest4, .cons hQ hforms⟩
      · grind

end Items

/-! ## Items and entries -/

section Spacing

variable {α : Type}

/-- Items with a blank between them. -/
def spaced : List α → List (List Char × α)
  | [] => []
  | a :: as => ([], a) :: as.map fun a => ([' '], a)

/-- Keys and values, with commas between the entries. -/
def spacedEntries : List (α × α) → List (List Char × α)
  | [] => []
  | e :: es => ([], e.1) :: ([' '], e.2) :: es.flatMap fun e => [([',', ' '], e.1), ([' '], e.2)]

theorem spaced_spaced (items : List α) : Spaced (spaced items) := by
  cases items with
  | nil | cons => exact ⟨by simp [spaced], by simp [spaced]⟩

theorem spaced_spacedEntries (entries : List (α × α)) : Spaced (spacedEntries entries) := by
  cases entries with
  | nil => exact ⟨by simp [spacedEntries], by simp [spacedEntries]⟩
  | cons =>
    constructor
    · simp only [spacedEntries, forall_mem_cons, mem_flatMap]
      grind
    · simp only [spacedEntries, tail_cons, forall_mem_cons, mem_flatMap]
      grind

theorem map_snd_spaced (items : List α) : (spaced items).map Prod.snd = items := by
  cases items with
  | nil => rfl
  | cons => simp [spaced, Function.comp_def]

theorem map_snd_spacedEntries (entries : List (α × α)) :
    (spacedEntries entries).map Prod.snd = entries.flatMap fun e => [e.1, e.2] := by
  cases entries with
  | nil => rfl
  | cons =>
    simp only [spacedEntries, map_cons, map_flatMap, map_nil, flatMap_cons]
    rfl

theorem intercalate_cons {β : Type} (sep : List β) (first : List β) (rest : List (List β)) :
    sep.intercalate (first :: rest) = first ++ rest.flatMap fun part => sep ++ part := by
  induction rest generalizing first with
  | nil => simp
  | cons part rest ih =>
    rw [intercalate_cons_cons, ih part, flatMap_cons]
    simp only [append_assoc]

theorem itemsChars_spaced (text : α → List Char) (items : List α) :
    itemsChars text (spaced items) = [' '].intercalate (items.map text) := by
  cases items with
  | nil => rfl
  | cons =>
    rw [map_cons, intercalate_cons, itemsChars, spaced, flatMap_cons, flatMap_map, flatMap_map]
    rfl

theorem itemsChars_spacedEntries (text : α → List Char) (entries : List (α × α)) :
    itemsChars text (spacedEntries entries) =
      [',', ' '].intercalate (entries.map fun e => text e.1 ++ ' ' :: text e.2) := by
  cases entries with
  | nil => rfl
  | cons =>
    rw [map_cons, intercalate_cons, itemsChars, spacedEntries, flatMap_cons,
      flatMap_cons, flatMap_assoc, flatMap_map]
    simp

theorem length_le_itemsChars {text : α → List Char} : ∀ {items : List (List Char × α)},
    (∀ item ∈ items, text item.2 ≠ []) → items.length ≤ (itemsChars text items).length ∧
      ∀ item ∈ items, (text item.2).length ≤ (itemsChars text items).length
  | [], _ => ⟨Nat.le_refl 0, by simp⟩
  | item :: items, h => by
    rw [forall_mem_cons] at h
    obtain ⟨hlen, hitems⟩ := length_le_itemsChars h.2
    have hpos := length_pos_iff.mpr h.1
    have hsplit : (itemsChars text (item :: items)).length =
        item.1.length + (text item.2).length + (itemsChars text items).length := by
      rw [itemsChars, flatMap_cons, length_append, length_append]
      rfl
    grind

end Spacing

/-! ## Data -/

/-- Data to be printed and read. A ratio is never an integer. -/
inductive Datum : Value → Prop
  | nil : Datum .nil
  | bool (b : Bool) : Datum (.bool b)
  | long (n : Int64) : Datum (.long n)
  | bigInt (n : Int) : Datum (.bigInt n)
  | ratio (r : ℚ) (h : r.den ≠ 1) : Datum (.ratio r)
  | char (c : Char) : Datum (.char c)
  | str (s : String) : Datum (.str s)
  | symbol (s : Symbol) (h : ReadableSymbol s) : Datum (.symbol s)
  | keyword (k : Keyword) (h : ReadableKeyword k) : Datum (.keyword k)
  | list (items : List Value) : Datum (.list items)
  | vector (items : List Value) : Datum (.vector items)
  | map (m : MapValue Value Value) : Datum (.map m)
  | set (s : SetValue Value) : Datum (.set s)

/-- Some character in the value is garbled. -/
inductive Illegible (p : Platform) : Value → Prop
  | char {c : Char} (h : Garbled p c) : Illegible p (.char c)
  | list {items : List Value} {x : Value} (hx : x ∈ items) (h : Illegible p x) :
      Illegible p (.list items)
  | vector {items : List Value} {x : Value} (hx : x ∈ items) (h : Illegible p x) :
      Illegible p (.vector items)
  | key {m : MapValue Value Value} {e : Value × Value} (he : e ∈ m.iter) (h : Illegible p e.1) :
      Illegible p (.map m)
  | value {m : MapValue Value Value} {e : Value × Value} (he : e ∈ m.iter) (h : Illegible p e.2) :
      Illegible p (.map m)
  | set {s : SetValue Value} {x : Value} (hx : x ∈ s.iter) (h : Illegible p x) :
      Illegible p (.set s)

def Legible (p : Platform) (v : Value) : Prop := ¬ Illegible p v

section Legible

theorem legible_scalar {v : Value} (hscalar : v.isScalar = true) (hchar : ∀ c, v ≠ .char c) :
    Legible p v := by
  intro h
  cases h with
  | char h => exact hchar _ rfl
  | _ => cases hscalar

variable {items : List Value}

theorem legible_list : Legible p (.list items) ↔ ∀ x ∈ items, Legible p x := by
  constructor
  · exact fun h x hx hx' => h (.list hx hx')
  · rintro h (_ | ⟨hx, hx'⟩)
    exact h _ hx hx'

theorem legible_vector : Legible p (.vector items) ↔ ∀ x ∈ items, Legible p x := by
  constructor
  · exact fun h x hx hx' => h (.vector hx hx')
  · rintro h (_ | _ | ⟨hx, hx'⟩)
    exact h _ hx hx'

theorem legible_set {s : SetValue Value} : Legible p (.set s) ↔ ∀ x ∈ s.iter, Legible p x := by
  constructor
  · exact fun h x hx hx' => h (.set hx hx')
  · intro h h'
    cases h' with
    | set hx hx' => exact h _ hx hx'

theorem legible_map {m : MapValue Value Value} :
    Legible p (.map m) ↔ ∀ x ∈ m.iter.flatMap (fun e => [e.1, e.2]), Legible p x := by
  constructor
  · intro h x hx hx'
    obtain ⟨e, he, hmem⟩ := mem_flatMap.mp hx
    rcases mem_pair.mp hmem with rfl | rfl
    · exact h (.key he hx')
    · exact h (.value he hx')
  · intro h h'
    cases h' with
    | key he hx' | value he hx' => exact h _ (mem_flatMap.mpr ⟨_, he, by simp⟩) hx'

end Legible

/-! ## Values of forms -/

def isReaderCond : Form → Bool
  | .mk (.readerCond _ _) _ => true
  | _ => false

section Convert

variable {num : Numerics} {env : Literals}

theorem expandForm_plain {form : Form} (h : isReaderCond form = false)
    (expand : List Form → List Form) : expandForm env expand form = [form] := by
  unfold expandForm
  split
  · cases h
  · cases h
  · rfl

variable {forms : List Form}

theorem expandReaderConds_plain (h : ∀ form ∈ forms, isReaderCond form = false) :
    expandReaderConds env forms = forms := by
  rw [expandReaderConds_eq, flatMap_congr fun form hform => expandForm_plain (h form hform) _]
  exact flatMap_singleton' forms

variable (num env)

/-- The form stands for a value built anew from `v`. -/
def StandsFor (D : Set Value) (v : Value) (form : Form) : Prop :=
  isReaderCond form = false ∧ Value.Rebuilt num D v (formToValue num env form)

variable {num env} {D : Set Value}

theorem standsFor_scalar {v : Value} (hv : v.isScalar = true) (hkind : atomKind tok = some kind)
    (hstep : ∀ f span, formToValueStep num env f (.mk kind span) = v) (span : Span) :
    StandsFor num env D v (.mk kind span) := by
  constructor
  · cases tok <;> first | (cases hkind; rfl) | cases hkind
  · rw [formToValue_eq, hstep]
    exact .scalar hv

theorem plain_of_standsFor {items : List Value}
    (h : List.Forall₂ (StandsFor num env D) items forms) :
    (∀ form ∈ forms, isReaderCond form = false) ∧
      List.Forall₂ (Value.Rebuilt num D) items (forms.map (formToValue num env)) := by
  constructor
  · intro form hform
    obtain ⟨x, -, hx⟩ := Matching.exists_left_of_forall₂ h form hform
    exact hx.1
  · exact List.forall₂_map_right_iff.mpr (h.imp fun _ _ hx => hx.2)

theorem assocForms_of_standsFor : ∀ {entries : List (Value × Value)} {forms : List Form}
    (m : MapValue Value Value),
    List.Forall₂ (StandsFor num env D) (entries.flatMap fun e => [e.1, e.2]) forms →
    forms.length % 2 = 0 ∧ ∃ pairs : List (Value × Value),
      assocForms num (formToValue num env) forms m =
        pairs.foldl (fun m pair => m.assoc (keyOps num) pair.1 pair.2) m ∧
      List.Forall₂ (Value.Rebuilt num D) (entries.map Prod.fst) (pairs.map Prod.fst) ∧
      List.Forall₂ (Value.Rebuilt num D) (entries.map Prod.snd) (pairs.map Prod.snd)
  | [], [], m, _ => ⟨rfl, [], rfl, .nil, .nil⟩
  | e :: entries, forms, m, h => by
    obtain ⟨key, rest, hkey, hrest, rfl⟩ := List.forall₂_cons_left_iff.mp h
    obtain ⟨value, forms, hvalue, hforms, rfl⟩ := List.forall₂_cons_left_iff.mp hrest
    obtain ⟨heven, pairs, hassoc, hkeys, hvalues⟩ := assocForms_of_standsFor
      (m.assoc (keyOps num) (formToValue num env key) (formToValue num env value)) hforms
    refine ⟨?_, (formToValue num env key, formToValue num env value) :: pairs, ?_,
      .cons hkey.2 hkeys, .cons hvalue.2 hvalues⟩
    · grind
    · rw [assocForms, hassoc]
      rfl

end Convert

/-! ## Printed data is read back -/

section Values

variable {fmt : Formats} {num : Numerics} {env : Literals} {K D : Set Value}

variable {n : Nat} {text : List Char} {Q : Form → Prop} {v : Value} {c : Char} {opening : List Char}

theorem ReadsAs.congr {good good' : Prop}
    (h : ReadsAs p n text good Q) (hgood : good ↔ good') : ReadsAs p n text good' Q := by
  rwa [propext hgood] at h

theorem prStr_ne_nil (fmt : Formats) (h : Datum v) : v.prStr fmt true ≠ [] := by
  have hint : ∀ n : Int, (toString n).toList ≠ [] := by
    intro n hnil
    rw [toList_toString, append_eq_nil_iff] at hnil
    exact Nat.toDigits_ne_nil hnil.2
  rw [prStr_eq]
  cases h with
  | bool b => cases b <;> exact cons_ne_nil _ _
  | long n => exact hint _
  | bigInt n => exact fun hnil => hint n (append_eq_nil_iff.mp hnil).1
  | ratio r hr =>
    rw [prStrStep, toList_displayRatio hr]
    simp
  | symbol s hs =>
    obtain ⟨c, tail, hname, -⟩ := hs.start
    rw [prStrStep, versionedName_eq, String.toList_append, hname]
    exact cons_ne_nil _ _
  | keyword =>
    rw [prStrStep, toList_display]
    exact cons_ne_nil _ _
  | _ => exact cons_ne_nil _ _

/-- A closing bracket. -/
def closers : List (Char × Token) := [(')', .rParen), (']', .rBracket), ('}', .rBrace)]

def brackets : List (Char × Token) := ('(', .lParen) :: ('[', .lBracket) :: ('{', .lBrace) :: closers

theorem lexes_bracket {token : Token} (h : (c, token) ∈ brackets) : LexesAlways p [c] token := by
  have hall : ∀ e ∈ brackets, punctuation.lookup e.1 = some e.2 ∧
      [' ', '\t', '\r', '\n', ','].contains e.1 = false ∧ e.1 ≠ ';' ∧ e.1 ≠ '#' := by decide
  obtain ⟨hlookup, hblank, hcomment, hhash⟩ := hall _ h
  exact lexes_punctuation hlookup fun rest => ⟨hblank, hcomment, fun heq => absurd heq hhash⟩

theorem lexes_closer {token : Token} (h : (c, token) ∈ closers) :
    Lexes p [c] token ∧ token.opens = false ∧ token ≠ .eof ∧ c ∈ [')', ']', '}'] := by
  have hall : ∀ e ∈ closers, e ∈ brackets ∧
      e.2.opens = false ∧ e.2 ≠ .eof ∧ e.1 ∈ [')', ']', '}'] := by decide
  obtain ⟨hbracket, hrest⟩ := hall _ h
  exact ⟨fun l rest hl htext _ => lexes_bracket hbracket l rest hl htext, hrest⟩

/-- A datum that `n` rounds read back. -/
structure Recovered (p : Platform) (fmt : Formats) (num : Numerics) (env : Literals) (D : Set Value)
    (n : Nat) (v : Value) : Prop where
  datum : Datum v
  reads : (v.prStr fmt true).length ≤ n →
    ReadsAs p n (v.prStr fmt true) (Legible p v) (StandsFor num env D v)

theorem readsAs_values {closing : Token}
    {items : List (List Char × Value)} {values : List Value} (name : String)
    (finish : Span → List Form → Span → Parse (Option Form)) (hvalues : items.map Prod.snd = values)
    (hspaced : Spaced items) (hopening : LexesAlways p opening tok) (hopens : tok.opens = true)
    (hclosing : (c, closing) ∈ closers)
    (hn : (itemsChars (prStr fmt true) items).length < n)
    (hread : ∀ x ∈ values, Recovered p fmt num env D n x)
    (hconstruct : ∀ l span, parseRaw p (n + 1) ⟨l, some (tok, span)⟩ = (do
        let (forms, close) ← parseSeqForms p (parseRaw p n) closing span name n []
        finish span forms close) ⟨l, none⟩)
    (hfinish : ∀ (forms : List Form) (span close : Span) (s : Parser),
      List.Forall₂ (StandsFor num env D) values forms →
      ∃ form, finish span forms close s = .ok (some form) s ∧ StandsFor num env D v form) :
    ReadsAs p (n + 1) (opening ++ (itemsChars (prStr fmt true) items ++ [c]))
      (∀ x ∈ values, Legible p x) (StandsFor num env D v) := by
  subst hvalues
  obtain ⟨hlexes, hclosed, heof, hc⟩ := lexes_closer (p := p) hclosing
  rw [forall_mem_map] at hread ⊢
  obtain ⟨hlen, hitem⟩ := length_le_itemsChars fun item h => prStr_ne_nil fmt (hread item h).datum
  intro l rest hl htext hrest
  have hsplit : l.rest = opening ++ (itemsChars (prStr fmt true) items ++ c :: rest) := by
    rw [htext]
    simp only [append_assoc, singleton_append]
  obtain ⟨span, l', htok, hl', hrest'⟩ := hopening l _ hl hsplit
  refine .inr ⟨tok, span, l', htok, hopens, ?_⟩
  rw [wp, hconstruct]
  refine wp_seq (wp_parseSeqForms hlexes hclosed heof hc hrest span name items (by omega) hspaced
    (fun item h => (hread item h).reads ((hitem item h).trans hn.le)) hl' hrest') ?_
  rintro ⟨forms, close⟩ s ⟨hall, read, l'', hr, rfl, hl'', hrest'', hforms⟩
  obtain rfl : forms = read := hr
  obtain ⟨form, hrun, hstands⟩ :=
    hfinish forms span close ⟨l'', none⟩ (List.forall₂_map_left_iff.mpr hforms)
  show wp (finish span forms close) _ _ _
  rw [wp, hrun]
  exact ⟨hall, form, l'', rfl, rfl, hl'', hrest'', hstands⟩

theorem readsAs_items {closing : Token}
    {items : List Value} (name : String) (kind : List Form → FormKind)
    (hopening : LexesAlways p opening tok) (hne : opening ≠ []) (hopens : tok.opens = true)
    (hclosing : (c, closing) ∈ closers)
    (hn : (opening ++ (itemsText (prStr fmt true) items ++ [c])).length ≤ n + 1)
    (hread : ∀ x ∈ items, Recovered p fmt num env D n x)
    (hparse : ∀ l span, parseRaw p (n + 1) ⟨l, some (tok, span)⟩ =
      parseCollection p (parseRaw p n) n closing name span kind ⟨l, some (tok, span)⟩)
    (hforms : ∀ forms span, List.Forall₂ (StandsFor num env D) items forms →
      StandsFor num env D v (.mk (kind forms) span)) :
    ReadsAs p (n + 1) (opening ++ (itemsText (prStr fmt true) items ++ [c]))
      (∀ x ∈ items, Legible p x) (StandsFor num env D v) := by
  have hpos := length_pos_iff.mpr hne
  rw [itemsText, ← itemsChars_spaced] at hn ⊢
  simp only [length_append, length_singleton] at hn
  refine readsAs_values name (fun span forms close => pure (some (.mk (kind forms)
    (mergedSpan span close)))) (map_snd_spaced items) (spaced_spaced items) hopening hopens hclosing
    (by omega) hread ?_ ?_
  · intro l span
    rw [hparse, parseCollection, run_bind (bump_run rfl)]
  · intro forms span close s h
    exact ⟨_, rfl, hforms forms _ h⟩

theorem readsAs_map {m : MapValue Value Value}
    (hn : ('{' :: (entriesText (prStr fmt true) m.iter ++ ['}'])).length ≤ n + 1)
    (hread : ∀ x ∈ m.iter.flatMap (fun e => [e.1, e.2]), Recovered p fmt num env K n x)
    (hK : Value.Tidy num K) (hD : Value.Clean num K D) (hm : map m ∈ D) :
    ReadsAs p (n + 1) ('{' :: (entriesText (prStr fmt true) m.iter ++ ['}']))
      (∀ x ∈ m.iter.flatMap (fun e => [e.1, e.2]), Legible p x) (StandsFor num env K (.map m)) := by
  rw [entriesText, ← itemsChars_spacedEntries] at hn ⊢
  simp only [length_cons, length_append] at hn
  have hopening : LexesAlways p ['{'] .lBrace := lexes_bracket (by decide)
  have hclosing : ('}', Token.rBrace) ∈ closers := by decide
  refine readsAs_values "map" (fun span forms close =>
    if ¬ forms.any isSplice ∧ forms.length % 2 ≠ 0 then
      parseError "map literal must have an even number of forms" span
    else return some (.mk (.map forms) (mergedSpan span close)))
    (map_snd_spacedEntries m.iter) (spaced_spacedEntries m.iter)
    hopening rfl hclosing (by omega) hread ?_ ?_
  · intro l span
    rw [parseRaw, run_bind (peekTok_run rfl), run_bind (peekSpan_run rfl)]
    show parseMap p (parseRaw p n) n span _ = _
    rw [parseMap, run_bind (bump_run rfl)]
  · intro forms span close s h
    obtain ⟨heven, pairs, hassoc, hkeys, hvalues⟩ := assocForms_of_standsFor .empty h
    refine ⟨.mk (.map forms) (mergedSpan span close), ?_, rfl, ?_⟩
    · rw [if_neg fun hodd => hodd.2 heven]
      rfl
    · rw [formToValue_eq, formToValueStep, hassoc]
      exact hD.rebuilt_assoc hK hm hkeys hvalues

/-- **Printed data is read as one form that stands for it**, by induction on the size of the
value. -/
theorem readsAs_value (hK : Value.Tidy num K) (hD : Value.Clean num K D) (hdata : ∀ v ∈ D, Datum v) :
    ∀ {v : Value}, v ∈ D → ∀ n, (v.prStr fmt true).length ≤ n →
    ReadsAs p n (v.prStr fmt true) (Legible p v) (StandsFor num env K v) := by
  intro v
  induction hsize : v.size using Nat.strong_induction_on generalizing v with
  | _ k ih =>
    intro hv n hn
    have hpos := length_pos_iff.mpr (prStr_ne_nil fmt (hdata v hv))
    obtain ⟨n, rfl⟩ : ∃ m, n = m + 1 := ⟨n - 1, by omega⟩
    have hchild : ∀ x ∈ v.children, Recovered p fmt num env K n x := by
      intro x hx
      have hxD := hD.children v hv x hx
      exact ⟨hdata x hxD, ih x.size (hsize ▸ size_lt_of_mem hx) rfl hxD n⟩
    have hatom : ∀ {tok : Token} {kind : FormKind}, v.isScalar = true → (∀ c, v ≠ .char c) →
        Lexes p (v.prStr fmt true) tok → atomKind tok = some kind →
        (∀ f span, formToValueStep num env f (.mk kind span) = v) →
        ReadsAs p (n + 1) (v.prStr fmt true) (Legible p v) (StandsFor num env K v) := by
      intro tok kind hscalar hchar hlexes hkind hstep
      exact readsAs_atom hlexes hkind (legible_scalar hscalar hchar)
        (standsFor_scalar hscalar hkind hstep)
    have hdatum := hdata v hv
    rw [prStr_eq] at hn hatom ⊢
    cases hdatum with
    | nil =>
      exact hatom rfl (by simp) (lexes_name (by decide) (by decide)) rfl fun _ _ => rfl
    | bool b =>
      cases b with
      | true | false =>
        exact hatom rfl (by simp) (lexes_name (by decide) (by decide)) rfl fun _ _ => rfl
    | long i => exact hatom rfl (by simp) (lexes_long i) rfl fun _ _ => rfl
    | bigInt i =>
      refine hatom rfl (by simp) (lexes_bigInt i) rfl fun f span => ?_
      rw [formToValueStep, parseBigInt_toString]
      rfl
    | ratio r hr =>
      have hlexes := lexes_ratio (p := p) r.num r.den
      rw [← toList_displayRatio hr] at hlexes
      refine hatom rfl (by simp) hlexes rfl fun f span => ?_
      rw [formToValueStep, parseRatio_toString hr]
      rfl
    | char c =>
      by_cases hc : Garbled p c
      · intro l rest hl htext hrest
        obtain ⟨e, l', herr⟩ := rejects_char hc hl htext hrest
        exact .inl ⟨e, l', herr, fun h => h (.char hc)⟩
      · have hkind : atomKind (.char c) = some (.char c) := rfl
        refine readsAs_atom (lexes_char hc) hkind ?_ (standsFor_scalar rfl hkind fun _ _ => rfl)
        rintro ⟨h⟩
        exact hc h
    | str s => exact hatom rfl (by simp) (lexes_str s) rfl fun _ _ => rfl
    | symbol s hs =>
      refine hatom rfl (by simp) (lexes_symbol hs) rfl fun f span => ?_
      rw [formToValueStep, hs.parse]
    | keyword k hk =>
      refine hatom rfl (by simp) (lexes_keyword hk) rfl fun f span => ?_
      rw [formToValueStep, hk.parse]
    | list =>
      have hopening : LexesAlways p ['('] .lParen := lexes_bracket (by decide)
      have hclosing : (')', Token.rParen) ∈ closers := by decide
      refine (readsAs_items "list" .list hopening (by simp) rfl hclosing hn
        hchild (fun _ _ => rfl) ?_).congr legible_list.symm
      · intro forms span h
        obtain ⟨hplain, hforms⟩ := plain_of_standsFor h
        refine ⟨rfl, ?_⟩
        rw [formToValue_eq, formToValueStep, expandReaderConds_plain hplain]
        exact .list hforms
    | vector =>
      have hopening : LexesAlways p ['['] .lBracket := lexes_bracket (by decide)
      have hclosing : (']', Token.rBracket) ∈ closers := by decide
      refine (readsAs_items "vector" .vector hopening (by simp) rfl hclosing hn
        hchild (fun _ _ => rfl) ?_).congr legible_vector.symm
      · intro forms span h
        obtain ⟨hplain, hforms⟩ := plain_of_standsFor h
        refine ⟨rfl, ?_⟩
        rw [formToValue_eq, formToValueStep, expandReaderConds_plain hplain]
        exact .vector hforms
    | set s =>
      have hmem : ∀ x ∈ s.iter, x ∈ (set s).children := fun x hx => SetValue.mem_members hx
      have hclosing : ('}', Token.rBrace) ∈ closers := by decide
      refine (readsAs_items "set" .set lexes_hashSet (by simp) rfl hclosing hn
        (fun x hx => hchild x (hmem x hx)) (fun _ _ => rfl) ?_).congr legible_set.symm
      · intro forms span h
        obtain ⟨-, hforms⟩ := plain_of_standsFor h
        refine ⟨rfl, ?_⟩
        rw [formToValue_eq, formToValueStep]
        exact hD.rebuilt_conj hK hv hforms
    | map m =>
      have hmem : ∀ x ∈ m.iter.flatMap (fun e => [e.1, e.2]), x ∈ (map m).children := by
        intro x hx
        obtain ⟨e, he, hmem⟩ := mem_flatMap.mp hx
        have hmembers := MapValue.mem_members he
        rcases mem_pair.mp hmem with rfl | rfl
        · exact hmembers.1
        · exact hmembers.2
      exact (readsAs_map hn (fun x hx => hchild x (hmem x hx)) hK hD hv).congr legible_map.symm

/-- The printed value is one form, and that form stands for an equal value. -/
def ReadsBack (p : Platform) (fmt : Formats) (num : Numerics) (env : Literals) (v : Value) : Prop :=
  ∃ form s, parseAll p (.new (v.prStr fmt true)) = .ok [form] s ∧
    v.eq num (formToValue num env form) = true ∧ (formToValue num env form).eq num v = true

theorem parseAllLoop_end {l : Lexer} (h : l.rest = []) (n : Nat) (forms : List Form) :
    ∃ s, parseAllLoop p (n + 1) forms ⟨l, none⟩ = .ok forms s := by
  have hone : parseOne p ⟨l, none⟩ = .ok none ⟨l, some (.eof, ⟨l.pos, l.pos, l.line, l.col⟩)⟩ := by
    rw [parseOne, run_bind run_get]
    show parseOneLoop p _ (Parser.unread ⟨l, none⟩ + 1) _ = _
    rw [parseOneLoop, run_bind (peekTok_fill (nextToken_end h)), if_pos rfl]
    rfl
  refine ⟨⟨l, some (.eof, ⟨l.pos, l.pos, l.line, l.col⟩)⟩, ?_⟩
  rw [parseAllLoop, run_bind hone]
  rfl

theorem ReadsAs.parseAll {good : Prop}
    (h : ReadsAs p (n + 1) text good Q) (hn : utf8Len text = n) (hpos : 0 < n)
    (hsize : utf8Len text + 2 < 2 ^ 32) :
    wp (parseAll p) (fun forms _ => good ∧ ∃ form, forms = [form] ∧ Q form) (fun _ _ => ¬ good)
      (.new text) := by
  have hrounds : (Parser.new text).rounds = n + 1 := by rw [← hn]; rfl
  have hone : wp (parseOne p) (fun r s => good ∧ FormRead [] Q r s) (fun _ _ => ¬ good) (.new text) := by
    rw [wp, parseOne, run_bind run_get, hrounds, parseOneLoop]
    rcases h (.new text) [] (small_new hsize) (append_nil _).symm (by rintro c ⟨⟩) with
      ⟨e, l', herr, hbad⟩ | ⟨tok, span, l', htok, hopens, hraw⟩
    · rw [Parser.new, run_bind_error (peekTok_fail herr)]
      exact hbad
    · have hne : tok ≠ .eof := by
        rintro rfl
        cases hopens
      rw [Parser.new, run_bind (peekTok_fill htok), if_neg hne]
      refine wp_seq_weaken hraw ?_ fun _ _ hbad => hbad
      rintro r s ⟨hgood, form, l, rfl, hread⟩
      exact ⟨hgood, form, l, rfl, hread⟩
  rw [wp, Reader.parseAll, run_bind run_get, hrounds, parseAllLoop]
  refine wp_seq_weaken hone ?_ fun _ _ hbad => hbad
  rintro r s ⟨hgood, form, l, rfl, rfl, -, hrest, hQ⟩
  obtain ⟨k, rfl⟩ : ∃ k, n = k + 1 := ⟨n - 1, by omega⟩
  obtain ⟨s, hend⟩ := parseAllLoop_end (p := p) hrest k [form]
  show wp (parseAllLoop p (k + 1) [form]) _ _ _
  rw [wp, hend]
  exact ⟨hgood, form, rfl, hQ⟩

theorem wp_parseAll_printed (p : Platform) (env : Literals) (hK : Value.Tidy num K)
    (hD : Value.Clean num K D) (hdata : ∀ v ∈ D, Datum v) (hv : v ∈ D)
    (hsize : utf8Len (v.prStr fmt true) + 2 < 2 ^ 32) :
    wp (parseAll p) (fun forms _ => Legible p v ∧ ∃ form, forms = [form] ∧ StandsFor num env K v form)
      (fun _ _ => ¬ Legible p v) (.new (v.prStr fmt true)) := by
  have hlen := length_le_utf8Len (v.prStr fmt true)
  have hpos := length_pos_iff.mpr (prStr_ne_nil fmt (hdata v hv))
  have hreads : ReadsAs p (utf8Len (v.prStr fmt true) + 1) (v.prStr fmt true) (Legible p v)
      (StandsFor num env K v) := readsAs_value hK hD hdata hv _ (by omega)
  exact hreads.parseAll rfl (by omega) hsize

theorem eq_of_prStr_eq (p : Platform) (env : Literals) (hD : Value.Tidy num D)
    (hdata : ∀ v ∈ D, Datum v) {a b : Value} (ha : a ∈ D) (hb : b ∈ D) (hlegible : Legible p a)
    (hsize : utf8Len (a.prStr fmt true) + 2 < 2 ^ 32) (h : a.prStr fmt true = b.prStr fmt true) :
    a.eq num b = true := by
  have hreadA := wp_parseAll_printed p env hD hD.clean hdata ha hsize
  have hreadB := wp_parseAll_printed p env hD hD.clean hdata hb (h ▸ hsize)
  rw [← h] at hreadB
  cases hparse : parseAll p (.new (a.prStr fmt true)) with
  | error => exact absurd hlegible (wp_error hreadA hparse)
  | ok =>
    obtain ⟨-, form, rfl, -, hrebuiltA⟩ := wp_ok hreadA hparse
    obtain ⟨-, form', hforms, -, hrebuiltB⟩ := wp_ok hreadB hparse
    obtain rfl := singleton_inj.mp hforms
    have hequal := (hD.clean.eq_rebuilt hD hb hrebuiltB).2
    rwa [(hD.agree (max a.size b.size)).eq a ⟨ha, le_max_left _ _⟩ b ⟨hb, le_max_right _ _⟩ _ b
      (.inr hrebuiltA) (.refl b)] at hequal

end Values

/-! ## A note, and a letter -/

def plainFormats : Formats := ⟨fun _ => false, fun _ => "", fun _ => "", fun _ => "", fun _ => "",
  fun _ => ""⟩

def plainLiterals : Literals := ⟨fun _ => none, fun _ => .nil, fun _ => none, fun _ => none,
  fun _ => false⟩

/-- `{:k [1/2 \newline "a\nb"]}`. -/
def note : Value :=
  .map (.array [(.keyword ⟨none, "k"⟩, .vector [.ratio (1 / 2), .char '\n', .str "a\nb"])])

/-- What is in the note. -/
inductive InNote : Value → Prop
  | whole : InNote note
  | key : InNote (.keyword ⟨none, "k"⟩)
  | items : InNote (.vector [.ratio (1 / 2), .char '\n', .str "a\nb"])
  | half : InNote (.ratio (1 / 2))
  | newline : InNote (.char '\n')
  | text : InNote (.str "a\nb")

theorem inNote_tidy : Value.Tidy exactNumerics {v | InNote v} := by
  refine .of_isBasic ?_ ?_
  · intro v hv
    cases hv with
    | whole => exact forall_mem_cons.mpr ⟨.key, forall_mem_singleton.mpr .items⟩
    | items =>
      exact forall_mem_cons.mpr ⟨.half, forall_mem_cons.mpr ⟨.newline,
        forall_mem_singleton.mpr .text⟩⟩
    | _ => exact fun _ h => nomatch h
  · intro v hv
    cases hv <;> rfl

theorem inNote_datum : ∀ v ∈ {v | InNote v}, Datum v := by
  intro v hv
  cases hv with
  | whole => exact .map _
  | key => exact .keyword _ ⟨by decide, by decide, by decide, by decide⟩
  | items => exact .vector _
  | half => exact .ratio _ (by decide +kernel)
  | newline => exact .char _
  | text => exact .str _

/-- The message of a parse that fails. -/
def readErrorOf : EStateM.Result Raised Parser (List Form) → Option String
  | .error (.error e) _ => some e.message
  | _ => none

end Clojurust.Reader
