import Clojurust.Bencode.Codec

/-!
# Laws of the bencode parser

* `Advances` — a parser that returns has read bytes from the front of its cursor;
* `Lead`, `lead` — the kinds of value that a first byte announces;
* `parse_int`, …, `listLoop_eq`, `dictLoop_eq` — the recursion of the source, without fuel;
* `parse_append` — what the parser finds, it finds in every longer buffer.
-/

namespace Clojurust.Bencode

open Decimal SortedTable List

/-! ## Reading moves forward -/

/-- The second cursor is the first, some bytes further on. -/
def Advances (c c' : Cursor) : Prop :=
  ∃ used, c.rest = used ++ c'.rest ∧ used ≠ [] ∧ c'.pos = c.pos + used.length

variable {c c' : Cursor} {v : Bencode} {fuel : Nat}

theorem Advances.trans {c'' : Cursor} (h : Advances c c') (h' : Advances c' c'') :
    Advances c c'' := by
  obtain ⟨used, hrest, hne, hpos⟩ := h
  obtain ⟨used', hrest', -, hpos'⟩ := h'
  refine ⟨used ++ used', ?_, ?_, ?_⟩
  · rw [hrest, hrest', append_assoc]
  · simp [hne]
  · grind

theorem Advances.length_lt (h : Advances c c') : c'.rest.length < c.rest.length := by
  obtain ⟨used, hrest, hne, -⟩ := h
  have := length_pos_iff.mpr hne
  grind

theorem advances_cons {b : UInt8} {rest : List UInt8} (h : c.rest = b :: rest) :
    Advances c ⟨c.pos + 1, rest⟩ :=
  ⟨[b], h, by simp, rfl⟩

theorem scanDigits_ok {stop : UInt8} {msg : String} : ∀ {rest text after : List UInt8} {sign : Bool},
    scanDigits stop msg sign rest = .ok (text, after) → rest = text ++ stop :: after
  | b :: rest, text, after, sign, h => by
    unfold scanDigits at h
    split at h
    · grind
    · split at h
      · split at h
        · cases h
        · rename_i text' after' hscan
          cases h
          rw [scanDigits_ok hscan]
          rfl
      · cases h

theorem parseInt_advances (h : parseInt c = .ok (v, c')) : Advances c c' ∧ ∃ i, v = .int i := by
  unfold parseInt at h
  split at h
  · cases h
  · rename_i text after hscan
    split at h
    · split at h
      · cases h
        refine ⟨⟨text ++ [101], ?_, by simp, ?_⟩, _, rfl⟩
        · rw [scanDigits_ok hscan, append_assoc, singleton_append]
        · grind
      · cases h
    · cases h

theorem parseBytes_advances (h : parseBytes c = .ok (v, c')) :
    Advances c c' ∧ ∃ b, v = .bytes b := by
  unfold parseBytes at h
  split at h
  · cases h
  · rename_i text after hscan
    split at h
    · cases h
    · rename_i len _
      dsimp only at h
      split at h
      · cases h
      · split at h
        · cases h
        · cases h
          refine ⟨⟨text ++ 58 :: after.take len, ?_, by simp, ?_⟩, _, rfl⟩
          · rw [scanDigits_ok hscan, append_assoc, cons_append, take_append_drop]
          · grind

theorem advances_end (h : c.rest.head? = some 101) : Advances c ⟨c.pos + 1, c.rest.tail⟩ := by
  obtain ⟨pos, rest⟩ := c
  cases rest with
  | nil => cases h
  | cons => exact advances_cons rfl

/-! ## The first byte -/

/-- What the first byte of a value announces. -/
inductive Lead : UInt8 → Prop where
  | int : Lead 105
  | list : Lead 108
  | dict : Lead 100
  | bytes {b : UInt8} (hdigit : isDigit b = true) : Lead b
  | other {b : UInt8} (hi : b ≠ 105) (hl : b ≠ 108) (hd : b ≠ 100) (hdigit : isDigit b ≠ true) : Lead b

theorem lead (b : UInt8) : Lead b := by
  by_cases hi : b = 105
  · subst hi
    exact .int
  by_cases hl : b = 108
  · subst hl
    exact .list
  by_cases hd : b = 100
  · subst hd
    exact .dict
  by_cases hdigit : isDigit b = true
  · exact .bytes hdigit
  · exact .other hi hl hd hdigit

theorem isDigit_ne {b : UInt8} (hdigit : isDigit b = true) : b ≠ 105 ∧ b ≠ 108 ∧ b ≠ 100 := by
  refine ⟨?_, ?_, ?_⟩ <;> rintro rfl <;> cases hdigit

section Lead

variable (fuel pos : Nat) (rest : List UInt8)

theorem parseValue_bytes {b : UInt8} (hdigit : isDigit b = true) :
    parseValue (fuel + 1) ⟨pos, b :: rest⟩ = parseBytes ⟨pos, b :: rest⟩ := by
  obtain ⟨hi, hl, hd⟩ := isDigit_ne hdigit
  unfold parseValue
  grind

theorem parseValue_other {b : UInt8} (hi : b ≠ 105) (hl : b ≠ 108) (hd : b ≠ 100)
    (hdigit : isDigit b ≠ true) :
    parseValue (fuel + 1) ⟨pos, b :: rest⟩ = .error (.invalid "unexpected type marker") := by
  unfold parseValue
  grind

end Lead

/-- Every parser that returns has moved on. -/
theorem advances_of_ok : ∀ fuel, (∀ c v c', parseValue fuel c = .ok (v, c') → Advances c c') ∧
    (∀ items c v c', parseList fuel items c = .ok (v, c') → Advances c c' ∧ ∃ items', v = .list items') ∧
    (∀ entries c v c', parseDict fuel entries c = .ok (v, c') →
      Advances c c' ∧ ∃ entries', v = .dict entries')
  | 0 => ⟨nofun, nofun, nofun⟩
  | fuel + 1 => by
    obtain ⟨ihValue, ihList, ihDict⟩ := advances_of_ok fuel
    refine ⟨?_, ?_, ?_⟩
    · rintro ⟨pos, rest⟩ v c' h
      cases rest with
      | nil => cases h
      | cons b rest =>
        have hcons : Advances ⟨pos, b :: rest⟩ ⟨pos + 1, rest⟩ := advances_cons rfl
        cases lead b with
        | int => exact hcons.trans (parseInt_advances h).1
        | list => exact hcons.trans (ihList _ _ _ _ h).1
        | dict => exact hcons.trans (ihDict _ _ _ _ h).1
        | bytes hdigit =>
          rw [parseValue_bytes _ _ _ hdigit] at h
          exact (parseBytes_advances h).1
        | other hi hl hd hdigit =>
          rw [parseValue_other _ _ _ hi hl hd hdigit] at h
          cases h
    · intro items c v c' h
      unfold parseList at h
      split at h
      · rename_i hend
        cases h
        exact ⟨advances_end hend, _, rfl⟩
      · split at h
        · cases h
        · rename_i item c1 hitem
          exact (ihList _ _ _ _ h).imp_left (ihValue _ _ _ hitem).trans
    · intro entries c v c' h
      unfold parseDict at h
      split at h
      · rename_i hend
        cases h
        exact ⟨advances_end hend, _, rfl⟩
      · split at h
        · cases h
        · rename_i key c1 hkey
          split at h
          · cases h
          · rename_i val c2 hval
            exact (ihDict _ _ _ _ h).imp_left ((ihValue _ _ _ hkey).trans (ihValue _ _ _ hval)).trans
        · cases h

/-! ## Fuel -/

/-- Fuel for the bytes that are left, twice, is as good as any more. -/
theorem fuel_irrelevant : ∀ n m, (∀ c, 2 * c.rest.length + 1 ≤ n → 2 * c.rest.length + 1 ≤ m →
      parseValue n c = parseValue m c) ∧
    (∀ items c, 2 * c.rest.length + 2 ≤ n → 2 * c.rest.length + 2 ≤ m →
      parseList n items c = parseList m items c) ∧
    (∀ entries c, 2 * c.rest.length + 2 ≤ n → 2 * c.rest.length + 2 ≤ m →
      parseDict n entries c = parseDict m entries c)
  | 0, _ | _ + 1, 0 => ⟨by omega, by omega, by omega⟩
  | n + 1, m + 1 => by
    obtain ⟨ihValue, ihList, ihDict⟩ := fuel_irrelevant n m
    refine ⟨?_, ?_, ?_⟩
    · unfold parseValue
      grind
    · intro items c hn hm
      unfold parseList
      split
      · rfl
      · rw [ihValue c (by omega) (by omega)]
        cases hvalue : parseValue m c with
        | error e => rfl
        | ok found =>
          obtain ⟨item, c'⟩ := found
          have hlt := ((advances_of_ok m).1 _ _ _ hvalue).length_lt
          exact ihList _ c' (by omega) (by omega)
    · intro entries c hn hm
      unfold parseDict
      split
      · rfl
      · rw [ihValue c (by omega) (by omega)]
        cases hkey : parseValue m c with
        | error e => rfl
        | ok found =>
          obtain ⟨key, c'⟩ := found
          have hlt := ((advances_of_ok m).1 _ _ _ hkey).length_lt
          cases key with
          | bytes =>
            dsimp only
            rw [ihValue c' (by omega) (by omega)]
            cases hval : parseValue m c' with
            | error e => rfl
            | ok found =>
              obtain ⟨val, c''⟩ := found
              have hlt' := ((advances_of_ok m).1 _ _ _ hval).length_lt
              exact ihDict _ c'' (by omega) (by omega)
          | _ => rfl

theorem parseValue_fuel (h : 2 * c.rest.length + 1 ≤ fuel) : parseValue fuel c = parse c :=
  (fuel_irrelevant fuel _).1 c h le_rfl

/-- The loop over the items, with the fuel it needs. -/
def listLoop (items : List Bencode) (c : Cursor) : Except ParseError (Bencode × Cursor) :=
  parseList (2 * c.rest.length + 2) items c

def dictLoop (entries : List (List UInt8 × Bencode)) (c : Cursor) :
    Except ParseError (Bencode × Cursor) :=
  parseDict (2 * c.rest.length + 2) entries c

theorem parse_advances (h : parse c = .ok (v, c')) : Advances c c' :=
  (advances_of_ok _).1 _ _ _ h

section Lead

variable (pos : Nat) (rest : List UInt8)

theorem parse_int : parse ⟨pos, 105 :: rest⟩ = parseInt ⟨pos + 1, rest⟩ := rfl

theorem parse_list : parse ⟨pos, 108 :: rest⟩ = listLoop [] ⟨pos + 1, rest⟩ := rfl

theorem parse_dict : parse ⟨pos, 100 :: rest⟩ = dictLoop [] ⟨pos + 1, rest⟩ := rfl

theorem parse_bytes {b : UInt8} (hdigit : isDigit b = true) :
    parse ⟨pos, b :: rest⟩ = parseBytes ⟨pos, b :: rest⟩ :=
  parseValue_bytes _ pos rest hdigit

theorem parse_other {b : UInt8} (hi : b ≠ 105) (hl : b ≠ 108) (hd : b ≠ 100)
    (hdigit : isDigit b ≠ true) :
    parse ⟨pos, b :: rest⟩ = .error (.invalid "unexpected type marker") :=
  parseValue_other _ pos rest hi hl hd hdigit

end Lead

theorem listLoop_eq (items : List Bencode) (c : Cursor) : listLoop items c =
      if c.rest.head? = some 101 then .ok (.list items, ⟨c.pos + 1, c.rest.tail⟩)
      else match parse c with
        | .error e => .error e
        | .ok (item, c') => listLoop (items ++ [item]) c' := by
  unfold listLoop parseList
  split
  · rfl
  · rw [parseValue_fuel le_rfl]
    cases hparse : parse c with
    | error e => rfl
    | ok =>
      have hlt := (parse_advances hparse).length_lt
      exact (fuel_irrelevant _ _).2.1 _ _ (by omega) le_rfl

theorem dictLoop_eq (entries : List (List UInt8 × Bencode)) (c : Cursor) : dictLoop entries c =
      if c.rest.head? = some 101 then .ok (.dict entries, ⟨c.pos + 1, c.rest.tail⟩)
      else match parse c with
        | .error e => .error e
        | .ok (.bytes key, c') =>
          match parse c' with
          | .error e => .error e
          | .ok (val, c'') => dictLoop (insertEntry key val entries) c''
        | .ok _ => .error (.invalid "dict key must be a byte string") := by
  unfold dictLoop parseDict
  split
  · rfl
  · rw [parseValue_fuel le_rfl]
    cases hparse : parse c with
    | error e => rfl
    | ok found =>
      obtain ⟨key, c'⟩ := found
      have hlt := (parse_advances hparse).length_lt
      cases key with
      | bytes =>
        dsimp only
        rw [parseValue_fuel (by omega)]
        cases hval : parse c' with
        | error e => rfl
        | ok =>
          have hlt' := (parse_advances hval).length_lt
          exact (fuel_irrelevant _ _).2.2 _ _ (by omega) le_rfl
      | _ => rfl

/-! ## Longer buffers -/

/-- The same cursor in a longer buffer. -/
def Cursor.append (c : Cursor) (more : List UInt8) : Cursor := ⟨c.pos, c.rest ++ more⟩

/-- The same result in a longer buffer. -/
def later (more : List UInt8) (r : Except ParseError (Bencode × Cursor)) :
    Except ParseError (Bencode × Cursor) :=
  r.map (fun found => (found.1, found.2.append more))

variable (more : List UInt8)

theorem scanDigits_append {stop : UInt8} {msg : String} :
    ∀ {sign : Bool} {rest : List UInt8}, scanDigits stop msg sign rest ≠ .error .incomplete →
    scanDigits stop msg sign (rest ++ more) =
      (scanDigits stop msg sign rest).map (fun found => (found.1, found.2 ++ more))
  | _, [], h => absurd rfl h
  | sign, b :: rest, h => by
    unfold scanDigits at h
    rw [cons_append]
    unfold scanDigits
    split
    · rfl
    · rename_i hb
      rw [if_neg hb] at h
      split
      · rename_i hdigit
        rw [if_pos hdigit] at h
        have hrest : scanDigits stop msg false rest ≠ .error .incomplete := by
          intro hinc
          rw [hinc] at h
          exact h rfl
        rw [scanDigits_append hrest]
        cases scanDigits stop msg false rest with
        | error | ok => rfl
      · rfl

theorem parseInt_append (h : parseInt c ≠ .error .incomplete) :
    parseInt (c.append more) = later more (parseInt c) := by
  unfold parseInt at h
  have hscan : scanInt c.rest ≠ .error .incomplete := by
    intro hinc
    rw [hinc] at h
    exact h rfl
  unfold parseInt
  rw [show scanInt (c.append more).rest = _ from scanDigits_append more hscan]
  unfold scanInt
  cases scanDigits 101 "non-digit in integer" true c.rest with
  | error e => rfl
  | ok found =>
    obtain ⟨text, after⟩ := found
    simp only [Except.map]
    split
    · cases parseI64 text with
      | none | some n => rfl
    · rfl

theorem parseBytes_append (h : parseBytes c ≠ .error .incomplete) :
    parseBytes (c.append more) = later more (parseBytes c) := by
  unfold parseBytes at h
  have hscan : scanLength c.rest ≠ .error .incomplete := by
    intro hinc
    rw [hinc] at h
    exact h rfl
  unfold parseBytes
  rw [show scanLength (c.append more).rest = _ from scanDigits_append more hscan]
  unfold scanLength at h ⊢
  cases hfound : scanDigits 58 "non-digit in string length" false c.rest with
  | error e => rfl
  | ok found =>
    obtain ⟨text, after⟩ := found
    rw [hfound] at h
    simp only [Except.map]
    cases hlen : (if isUtf8 text = true then parseUsize text else none) with
    | none => rfl
    | some len =>
      simp only [hlen] at h ⊢
      have hpos : (c.append more).pos = c.pos := rfl
      rw [hpos]
      split
      · rfl
      · rename_i hoverflow
        rw [if_neg hoverflow] at h
        have henough : ¬ after.length < len := by
          intro hshort
          rw [if_pos hshort] at h
          exact h rfl
        have henough' : ¬ (after ++ more).length < len := by
          rw [length_append]
          omega
        simp only [later, Except.map, Cursor.append]
        grind

theorem parseValue_nil (fuel pos : Nat) : parseValue fuel ⟨pos, []⟩ = .error .incomplete := by
  cases fuel <;> rfl

theorem append_end (h : c.rest.head? = some 101) :
    (c.append more).rest.head? = some 101 ∧ (c.append more).rest.tail = c.rest.tail ++ more := by
  obtain ⟨pos, rest⟩ := c
  cases rest with
  | nil => cases h
  | cons => exact ⟨h, rfl⟩

theorem append_not_end (h : c.rest.head? ≠ some 101)
    (hsettled : parseValue fuel c ≠ .error .incomplete) :
    (c.append more).rest.head? ≠ some 101 := by
  obtain ⟨pos, rest⟩ := c
  cases rest with
  | nil => exact absurd (parseValue_nil fuel pos) hsettled
  | cons => exact h

theorem append_of_settled : ∀ fuel, (∀ c, parseValue fuel c ≠ .error .incomplete →
      parse (c.append more) = later more (parseValue fuel c)) ∧
    (∀ items c, parseList fuel items c ≠ .error .incomplete →
      listLoop items (c.append more) = later more (parseList fuel items c)) ∧
    (∀ entries c, parseDict fuel entries c ≠ .error .incomplete →
      dictLoop entries (c.append more) = later more (parseDict fuel entries c))
  | 0 => ⟨fun _ h => absurd rfl h, fun _ _ h => absurd rfl h, fun _ _ h => absurd rfl h⟩
  | fuel + 1 => by
    obtain ⟨ihValue, ihList, ihDict⟩ := append_of_settled fuel
    refine ⟨?_, ?_, ?_⟩
    · rintro ⟨pos, rest⟩ h
      cases rest with
      | nil => exact absurd (parseValue_nil _ pos) h
      | cons b rest =>
        cases lead b with
        | int => exact parseInt_append more h
        | list => exact ihList [] ⟨pos + 1, rest⟩ h
        | dict => exact ihDict [] ⟨pos + 1, rest⟩ h
        | bytes hdigit =>
          rw [parseValue_bytes _ _ _ hdigit] at h ⊢
          rw [show Cursor.append ⟨pos, b :: rest⟩ more = ⟨pos, b :: (rest ++ more)⟩ from rfl,
            parse_bytes _ _ hdigit]
          exact parseBytes_append more h
        | other hi hl hd hdigit =>
          rw [parseValue_other _ _ _ hi hl hd hdigit]
          exact parse_other _ _ hi hl hd hdigit
    · intro items c h
      unfold parseList at h ⊢
      rw [listLoop_eq]
      by_cases hend : c.rest.head? = some 101
      · obtain ⟨hhead, htail⟩ := append_end more hend
        rw [if_pos hend, if_pos hhead, htail]
        rfl
      · rw [if_neg hend] at h ⊢
        have hsettled : parseValue fuel c ≠ .error .incomplete := by
          intro hinc
          rw [hinc] at h
          exact h rfl
        rw [if_neg (append_not_end more hend hsettled), ihValue c hsettled]
        cases hvalue : parseValue fuel c with
        | error e => rfl
        | ok found =>
          obtain ⟨item, c'⟩ := found
          rw [hvalue] at h
          exact ihList _ c' h
    · intro entries c h
      unfold parseDict at h ⊢
      rw [dictLoop_eq]
      by_cases hend : c.rest.head? = some 101
      · obtain ⟨hhead, htail⟩ := append_end more hend
        rw [if_pos hend, if_pos hhead, htail]
        rfl
      · rw [if_neg hend] at h ⊢
        have hsettled : parseValue fuel c ≠ .error .incomplete := by
          intro hinc
          rw [hinc] at h
          exact h rfl
        rw [if_neg (append_not_end more hend hsettled), ihValue c hsettled]
        cases hkey : parseValue fuel c with
        | error e => rfl
        | ok found =>
          obtain ⟨key, c'⟩ := found
          rw [hkey] at h
          cases key with
          | bytes =>
            dsimp only [later, Except.map] at h ⊢
            have hsettled' : parseValue fuel c' ≠ .error .incomplete := by
              intro hinc
              rw [hinc] at h
              exact h rfl
            rw [ihValue c' hsettled']
            cases hval : parseValue fuel c' with
            | error e => rfl
            | ok found =>
              obtain ⟨val, c''⟩ := found
              rw [hval] at h
              exact ihDict _ c'' h
          | _ => rfl

/-- **What the parser finds or refuses, it finds or refuses in every longer buffer.** -/
theorem parse_append (h : parse c ≠ .error .incomplete) :
    parse (c.append more) = later more (parse c) :=
  (append_of_settled more _).1 c h

end Clojurust.Bencode
