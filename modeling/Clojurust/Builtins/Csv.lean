import Clojurust.Lib.Float64
import Mathlib.Data.List.Basic

/-!
# Writing CSV

`write_csv` of `crates/cljrs-num/src/csv.rs`, from the parsed columns on, and a reader for the
records of RFC 4180: fields with doubled quotes, records ended by LF or CRLF.

* `writeCsv` — the text that is written and the number of rows;
* `readCsv` — the records of a text;
* `readCsv_lines` — a line reads as its fields, but for a CR that ends a bare last field;
* `csv_reads_back_iff` — when a written text reads back.
-/

namespace Clojurust.Csv

open List

abbrev Text := List Char

/-- The two arrays of a timestamp column have one length. -/
inductive Column where
  | timestamps (v : List (Int64 × Int64))
  | doubles (v : List F64)
  | longs (v : List Int64)
  | dates (v : List Int64)
  | strings (v : List (Option Text))
  | const (s : Text)

def Column.len : Column → Option Nat
  | .doubles v => some v.length
  | .longs v | .dates v => some v.length
  | .timestamps v => some v.length
  | .strings v => some v.length
  | .const _ => none

/-- A text that is quoted. -/
abbrev Special (s : Text) : Prop := ',' ∈ s ∨ '"' ∈ s ∨ '\n' ∈ s

def double (s : Text) : Text := s.flatMap fun c => if c = '"' then ['"', '"'] else [c]

def escape (s : Text) : Text := if Special s then '"' :: double s ++ ['"'] else s

/-- `{:0width$}`: the sign stands before the zeros and counts. -/
def pad (width : Nat) (n : Int64) : Text :=
  let sign := if n < 0 then ['-'] else []
  let digits := Nat.toDigits 10 n.toInt.natAbs
  sign ++ replicate (width - sign.length - digits.length) '0' ++ digits

def dayToYmd (day : Int64) : Int64 × Int64 × Int64 :=
  let z := day + 719468
  let era := (if z ≥ 0 then z else z - 146096) / 146097
  let doe := z - era * 146097
  let yoe := (doe - doe / 1460 + doe / 36524 - doe / 146096) / 365
  let y := yoe + era * 400
  let doy := doe - (365 * yoe + yoe / 4 - yoe / 100)
  let mp := (5 * doy + 2) / 153
  let d := doy - (153 * mp + 2) / 5 + 1
  let m := mp + if mp < 10 then 3 else -9
  (if m ≤ 2 then y + 1 else y, m, d)

def dayStr (day : Int64) : Text :=
  let ymd := dayToYmd day
  pad 4 ymd.1 ++ '-' :: pad 2 ymd.2.1 ++ '-' :: pad 2 ymd.2.2

def tsStr (day secs : Int64) : Text :=
  let day := day + .ofInt (secs.toInt / 86400)
  let secs := Int64.ofInt (secs.toInt % 86400)
  dayStr day ++ ' ' :: pad 2 (secs / 3600) ++ ':' :: pad 2 (secs % 3600 / 60) ++
    ':' :: pad 2 (secs % 60)

section Write

variable (display : F64 → Text)

/-- The column rendered; `esc` is `escape`, or `id` for the cells themselves. -/
def Column.render (esc : Text → Text) : Column → List Text
  | .doubles v => v.map fun x => if x.isNaN then [] else display x
  | .longs v => v.map (pad 0)
  | .dates v => v.map dayStr
  | .timestamps v => v.map fun x => tsStr x.1 x.2
  | .strings v => v.map fun s => (s.map esc).getD []
  | .const s => [esc s]

def Column.cell (esc : Text → Text) (c : Column) (row : Nat) : Text :=
  let col := c.render display esc
  col.getD (if col.length = 1 ∧ c.len = none then 0 else row) []

def countRows (header : List Text) :
    Nat → Option Nat → List Column → Except String (Option Nat)
  | _, n, [] => .ok n
  | i, n, c :: cols =>
    match c.len, n with
    | none, n => countRows header (i + 1) n cols
    | some len, none => countRows header (i + 1) (some len) cols
    | some len, some n =>
      if n ≠ len then
        .error s!"column {i} ({String.ofList (header.getD i [])}) has {len} rows, expected {n}"
      else countRows header (i + 1) (some n) cols

def line (fields : List Text) : Text := [','].intercalate fields ++ ['\n']

/-- The text written to the file; the header is left out when a file is appended to. -/
def writeCsv (header : List Text) (cols : List Column) (appending : Bool) :
    Except String (Text × Nat) :=
  if cols.length ≠ header.length then
    .error s!"{header.length} header names but {cols.length} columns"
  else
    match countRows header 0 none cols with
    | .error e => .error e
    | .ok none => .error "at least one non-const column is required"
    | .ok (some n) =>
      let top := if appending then [] else line (header.map escape)
      .ok (top ++ (range n).flatMap fun row => line (cols.map (·.cell display escape row)), n)

end Write

/-! ## Reading -/

/-- Where a field is read: outside of quotes, within them, or after them. -/
inductive Mode where
  | plain
  | quoted
  | closed
  deriving DecidableEq

/-- The records of a text, from within the field `cell` of the record `row` on. Outside of quotes a
CR is text, unless LF follows. -/
def readCsv : Mode → Text → List Text → Text → Option (List (List Text))
  | .plain, [], [], [] => some []
  | .quoted, _, _, [] => none
  | _, cell, row, [] => some [row ++ [cell]]
  | mode, cell, row, c :: rest =>
    if mode = .quoted then
      if c = '"' then readCsv .closed cell row rest else readCsv .quoted (cell ++ [c]) row rest
    else if c = ',' then readCsv .plain [] (row ++ [cell]) rest
    else if c = '\n' then (readCsv .plain [] [] rest).map ((row ++ [cell]) :: ·)
    else if c = '\r' ∧ rest.head? = some '\n' then readCsv mode cell row rest
    else if c = '"' then
      -- a doubled quote, or the one that opens the field
      if mode = .closed then readCsv .quoted (cell ++ [c]) row rest
      else if cell = [] then readCsv .quoted [] row rest else none
    else if mode = .closed then none
    else readCsv .plain (cell ++ [c]) row rest

/-- A text without a CR at its end. -/
def chop : Text → Text
  | [] => []
  | [c] => if c = '\r' then [] else [c]
  | c :: s => c :: chop s

/-- The record that is read for a line: a CR at the end of a bare last field is read as part of the
line end. -/
def stripped : List Text → List Text
  | [] => []
  | [s] => [if Special s then s else chop s]
  | s :: cells => s :: stripped cells

variable {s rest : Text} {d : Char}

section Field

variable (row : List Text) (rest : Text)

theorem readCsv_double : ∀ (s cell : Text), readCsv .quoted cell row (double s ++ '"' :: rest) =
    readCsv .closed (cell ++ s) row rest
  | [], cell => by simp [double, readCsv]
  | c :: s, cell => by
    have ih := readCsv_double s (cell ++ [c])
    rw [append_assoc] at ih
    by_cases hc : c = '"'
    · subst hc
      simpa [double, readCsv] using ih
    · simpa [double, readCsv, hc] using ih

theorem readCsv_bare (hd : d = ',' ∨ d = '\n') : ∀ (s cell : Text), ¬ Special s →
    readCsv .plain cell row (s ++ d :: rest) =
      readCsv .plain (cell ++ if d = '\n' then chop s else s) row (d :: rest)
  | [], cell, _ => by simp [chop]
  | c :: s, cell, hs => by
    simp only [mem_cons, not_or] at hs
    by_cases hskip : c = '\r' ∧ (s ++ d :: rest).head? = some '\n'
    · obtain ⟨rfl, hhead⟩ := hskip
      cases s with
      | nil =>
        cases hhead
        simp [readCsv, chop]
      | cons a s =>
        cases hhead
        simp at hs
    · have hpush : readCsv .plain cell row (c :: s ++ d :: rest) =
          readCsv .plain (cell ++ [c]) row (s ++ d :: rest) := by
        rw [cons_append, readCsv, if_neg (by simp), if_neg (Ne.symm hs.1.1),
          if_neg (Ne.symm hs.2.2.1), if_neg hskip, if_neg (Ne.symm hs.2.1.1), if_neg (by simp)]
      have hchop : d = '\n' → chop (c :: s) = c :: chop s := by
        rintro rfl
        cases s with
        | nil => exact if_neg fun hc => hskip ⟨hc, rfl⟩
        | cons => rfl
      rw [hpush, readCsv_bare hd s (cell ++ [c]) (by simp [hs]), append_assoc]
      split
      · rename_i hline
        rw [hchop hline]
        rfl
      · rfl

theorem readCsv_field (hd : d = ',' ∨ d = '\n') (s : Text) :
    readCsv .plain [] row (escape s ++ d :: rest) =
      readCsv .plain (if Special s ∨ d = ',' then s else chop s) row (d :: rest) := by
  by_cases hs : Special s
  · have hopen : readCsv .plain [] row (escape s ++ d :: rest) =
        readCsv .quoted [] row (double s ++ '"' :: d :: rest) := by
      simp [escape, if_pos hs, readCsv]
    rw [hopen, readCsv_double, if_pos (.inl hs)]
    -- the end of the field is the same after quotes
    rcases hd with rfl | rfl <;> simp [readCsv]
  · rw [escape, if_neg hs, readCsv_bare row rest hd s [] hs]
    rcases hd with rfl | rfl <;> simp [hs]

theorem readCsv_line : ∀ (row : List Text) {cells : List Text}, cells ≠ [] →
    readCsv .plain [] row (line (cells.map escape) ++ rest) =
      (readCsv .plain [] [] rest).map ((row ++ stripped cells) :: ·)
  | row, [s], _ => by
    have hline : line ([s].map escape) ++ rest = escape s ++ '\n' :: rest := by simp [line]
    rw [hline, readCsv_field row rest (.inr rfl)]
    simp [readCsv, stripped]
  | row, s :: t :: cells, _ => by
    have hline : line ((s :: t :: cells).map escape) ++ rest =
        escape s ++ ',' :: (line ((t :: cells).map escape) ++ rest) := by simp [line, intercalate]
    rw [hline, readCsv_field row _ (.inl rfl), if_pos (.inr rfl)]
    have ih := readCsv_line (row ++ [s]) (cons_ne_nil t cells)
    rw [append_assoc] at ih
    simpa [readCsv, stripped] using ih

end Field

theorem readCsv_lines : ∀ {records : List (List Text)}, [] ∉ records →
    readCsv .plain [] [] (records.flatMap fun cells => line (cells.map escape)) =
      some (records.map stripped)
  | [], _ => rfl
  | cells :: records, h => by
    rw [mem_cons, not_or] at h
    rw [flatMap_cons, readCsv_line _ [] (Ne.symm h.1), readCsv_lines h.2]
    rfl

theorem chop_eq_self_iff : ∀ {s : Text}, chop s = s ↔ s.getLast? ≠ some '\r'
  | [] => by simp [chop]
  | [c] => by simp [chop]
  | c :: a :: s => by
    have ih := chop_eq_self_iff (s := a :: s)
    simpa [chop] using ih

theorem stripped_eq_self_iff : ∀ {cells : List Text}, stripped cells = cells ↔
    ∀ s, cells.getLast? = some s → ¬ Special s → s.getLast? ≠ some '\r'
  | [] => by simp [stripped]
  | [s] => by simp [stripped, ← chop_eq_self_iff]
  | s :: t :: cells => by
    have ih := @stripped_eq_self_iff (t :: cells)
    simpa [stripped] using ih

/-! ## Written texts -/

theorem not_mem_pad {c : Char} {width : Nat} {n : Int64} (hdigit : c.isDigit = false)
    (hsign : c ≠ '-') : c ∉ pad width n := by
  have hc : c ≠ '0' := by
    rintro rfl
    cases hdigit
  have hdigits : c ∉ Nat.toDigits 10 n.toInt.natAbs := by
    intro h
    cases hdigit.symm.trans (Nat.isDigit_of_mem_toDigits (by omega) (by omega) h)
  simp only [pad, mem_append, hdigits]
  split <;> simp [hc, hsign]

theorem not_special_dayStr (day : Int64) : ¬ Special (dayStr day) := by
  have hymd : ∀ ymd : Int64 × Int64 × Int64,
      ¬ Special (pad 4 ymd.1 ++ '-' :: pad 2 ymd.2.1 ++ '-' :: pad 2 ymd.2.2) := by
    simp (disch := decide) [not_mem_pad]
  exact hymd _

theorem map_escape {α : Type} {f : α → Text} (h : ∀ x, ¬ Special (f x)) (v : List α) :
    v.map f = (v.map f).map escape := by
  rw [map_map]
  exact map_congr_left fun x _ => (if_neg (h x)).symm

theorem countRows_len {header : List Text} :
    ∀ {cols : List Column} {i n : Nat} {known : Option Nat},
      countRows header i known cols = .ok (some n) →
        known.getD n = n ∧ ∀ c ∈ cols, c.len.getD n = n
  | [], _, _, _, h => by
    cases h
    exact ⟨rfl, nofun⟩
  | c :: cols, i, n, known, h => by
    rw [forall_mem_cons]
    unfold countRows at h
    split at h
    · rename_i hlen
      obtain ⟨hknown, hcols⟩ := countRows_len h
      exact ⟨hknown, by rw [hlen]; rfl, hcols⟩
    · rename_i len hlen
      obtain ⟨hknown, hcols⟩ := countRows_len h
      exact ⟨rfl, by rw [hlen]; exact hknown, hcols⟩
    · rename_i len k hlen
      split at h
      · cases h
      · rename_i hsame
        obtain ⟨hknown, hcols⟩ := countRows_len h
        exact ⟨hknown, by rw [hlen, ← Decidable.not_not.mp hsame]; exact hknown, hcols⟩

/-- The records that are written. -/
def records (display : F64 → Text) (header : List Text) (cols : List Column) (appending : Bool)
    (n : Nat) : List (List Text) :=
  (if appending then [] else [header]) ++ (range n).map fun row => cols.map (·.cell display id row)

section Results

variable {display : F64 → Text} (hdisplay : ∀ x, ¬ Special (display x))
include hdisplay

theorem render_escape (c : Column) :
    c.render display escape = (c.render display id).map escape := by
  cases c with
  | doubles v =>
    refine map_escape (fun x => ?_) v
    split
    · simp
    · exact hdisplay x
  | longs v =>
    refine map_escape (fun x => ?_) v
    simp (disch := decide) [not_mem_pad]
  | dates v => exact map_escape not_special_dayStr v
  | timestamps v =>
    refine map_escape (fun x => ?_) v
    have hday := not_special_dayStr (x.1 + .ofInt (x.2.toInt / 86400))
    simp only [not_or] at hday
    simp (disch := decide) [tsStr, not_mem_pad, hday]
  | strings v =>
    simp only [Column.render, map_map]
    refine map_congr_left fun x _ => ?_
    cases x <;> rfl
  | const s => rfl

theorem cell_escape (c : Column) (row : Nat) :
    c.cell display escape row = escape (c.cell display id row) := by
  simp only [Column.cell, render_escape hdisplay, length_map]
  exact getD_map (d := []) ..

/-- **When a written text reads back**: no record may end in a bare field that ends in CR. Every
column has a cell for each row. -/
theorem csv_reads_back_iff (header : List Text) (cols : List Column) (appending : Bool)
    (text : Text) (n : Nat) (h : writeCsv display header cols appending = .ok (text, n)) :
    (∀ c ∈ cols, c.len.getD n = n) ∧
      (readCsv .plain [] [] text = some (records display header cols appending n) ↔
        ∀ record ∈ records display header cols appending n, ∀ s, record.getLast? = some s →
          ¬ Special s → s.getLast? ≠ some '\r') := by
  unfold writeCsv at h
  split at h
  · cases h
  rename_i hsame
  split at h
  · cases h
  · cases h
  rename_i n' hcount
  cases h
  refine ⟨(countRows_len hcount).2, ?_⟩
  have hcols : cols ≠ [] := by
    rintro rfl
    cases hcount
  have hheader : header ≠ [] := by
    rintro rfl
    exact hcols (length_eq_zero_iff.mp (Decidable.not_not.mp hsame))
  have hempty : [] ∉ records display header cols appending n := by
    cases appending <;> simp [records, hcols, hheader.symm]
  have htext : (if appending = true then [] else line (header.map escape)) ++
      ((range n).flatMap fun row => line (cols.map (·.cell display escape row))) =
        (records display header cols appending n).flatMap fun cells => line (cells.map escape) := by
    cases appending <;> simp [records, cell_escape hdisplay, flatMap_map, Function.comp_def]
  rw [htext, readCsv_lines hempty, Option.some_inj]
  have hself := map_inj_left (f := stripped) (g := id)
    (l := records display header cols appending n)
  rw [map_id] at hself
  simp only [hself, id, stripped_eq_self_iff]

end Results

theorem csv_reads_back_quoted :
    readCsv .plain [] [] ['a', ',', 'b', '\n', '"', 'x', '\n', '"', '"', '"', ',', '\n'] =
      some [[['a'], ['b']], [['x', '\n', '"'], []]] := by
  have hwrite : writeCsv (fun _ => []) [['a'], ['b']]
      [.strings [some ['x', '\n', '"']], .const []] false =
      .ok (['a', ',', 'b', '\n', '"', 'x', '\n', '"', '"', '"', ',', '\n'], 1) := by decide
  refine (csv_reads_back_iff (by simp) _ _ _ _ _ hwrite).2.mpr ?_
  decide

/-- A cell that ends in CR and ends its record is read without it. -/
theorem carriage_return_lost :
    writeCsv (fun _ => []) [['a']] [.strings [some ['x', '\r']]] false =
        .ok (['a', '\n', 'x', '\r', '\n'], 1) ∧
      readCsv .plain [] [] ['a', '\n', 'x', '\r', '\n'] = some [[['a']], [['x']]] := by
  decide

end Clojurust.Csv
