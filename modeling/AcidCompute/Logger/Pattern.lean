import AcidCompute.Base.Text

/-!
# Patterns of log lines (`LogFormatter::LogFormatter`, `LogFormatter::init`)

A pattern is cut into texts and items.  Behind `%d` the scanner looks for a format in braces, also if the pattern ends
there, and asks for the closing brace with `at`, which throws behind the end; so the error that it wants to report is
never reported (`new_iff`).
-/

namespace AcidCompute

inductive FormatItem
  | message
  | level
  | loggerName
  | elapse
  | fileName
  | line
  | threadId
  | fiberId
  | threadName
  | percentSign
  | tab
  | newLine
  | string (str : List Byte)
  | dateTime (format : List Byte)
  deriving DecidableEq, Repr

namespace LogFormatter

/-- `format_items` -/
def formatItems : List (List Byte × FormatItem) :=
  [(bytes "m", .message), (bytes "p", .level), (bytes "c", .loggerName), (bytes "r", .elapse), (bytes "f", .fileName),
   (bytes "l", .line), (bytes "t", .threadId), (bytes "F", .fiberId), (bytes "N", .threadName),
   (bytes "%", .percentSign), (bytes "T", .tab), (bytes "n", .newLine)]

/-- The variables of the loop in `init`. -/
structure Scan where
  -- 0 for a text and 1 for an item
  patterns : List (Nat × List Byte)
  tmp : List Byte
  dateFormat : List Byte
  parseNormalString : Bool
  deriving DecidableEq, Repr

namespace Scan

variable (s : Scan)

/-- `patterns.emplace_back(0, tmp)`, unless there is no text. -/
def pushTmp : Scan := { s with patterns := if s.tmp = [] then s.patterns else s.patterns ++ [(0, s.tmp)], tmp := [] }

/-- `patterns.emplace_back(1, c)` -/
def pushItem (c : Byte) : Scan := { s with patterns := s.patterns ++ [(1, [c])], parseNormalString := true }

end Scan

mutual

/-- The loop in `init` on what is left of the pattern, or nothing if `at` throws. -/
def scan (s : Scan) : List Byte → Option Scan
  | [] => some s
  | c :: rest =>
    -- `%`
    if c = 37 then
      if s.parseNormalString then scan { s.pushTmp with parseNormalString := false } rest
      else scan (s.pushItem c) rest
    else if s.parseNormalString then scan { s with tmp := s.tmp ++ [c] } rest
    -- `d`
    else if c ≠ 100 then scan (s.pushItem c) rest
    else
      match rest with
      -- `at` is asked for the character behind the next one
      | [] => none
      -- an opening brace
      | d :: rest => if d ≠ 123 then scan (s.pushItem c) (d :: rest) else scanBraces (s.pushItem c) rest

/-- The loop inside, up to the closing brace. -/
def scanBraces (s : Scan) : List Byte → Option Scan
  | [] => none
  | c :: rest => if c ≠ 125 then scanBraces { s with dateFormat := s.dateFormat ++ [c] } rest else scan s rest

end

/-- The items up to the first that is unknown, and whether there is such an item. -/
def build (dateFormat : List Byte) : List (Nat × List Byte) → List FormatItem × Bool
  | [] => ([], false)
  | (kind, str) :: patterns =>
    if kind = 0 then ((build dateFormat patterns).map (.string str :: ·) id)
    else if str = bytes "d" then ((build dateFormat patterns).map (.dateTime dateFormat :: ·) id)
    else
      match formatItems.lookup str with
      | none => ([], true)
      | some item => ((build dateFormat patterns).map (item :: ·) id)

end LogFormatter

structure LogFormatter where
  pattern : List Byte
  items : List FormatItem
  isError : Bool
  deriving DecidableEq, Repr

/-- `LogFormatter(pattern)`, or nothing if it throws `std::out_of_range`. -/
def LogFormatter.new (pattern : List Byte) : Option LogFormatter :=
  (scan ⟨[], [], [], true⟩ pattern).map fun s =>
    let (items, isError) := build s.dateFormat s.pushTmp.patterns
    ⟨pattern, items, isError⟩

/-! ### What a pattern says -/

namespace LogFormatter

/-- A character or an item of a pattern; a date may have a format of its own in braces. -/
inductive Piece
  | char (c : Byte)
  | item (c : Byte)
  | date (own : Option (List Byte))
  deriving DecidableEq, Repr

/-- The pattern begins with some pieces, and the rest is behind them. -/
inductive Reads : List Byte → List Piece → List Byte → Prop
  | done (rest : List Byte) : Reads rest [] rest
  | char {c : Byte} {p rest : List Byte} {ps : List Piece} (hc : c ≠ 37) (h : Reads p ps rest) :
    Reads (c :: p) (.char c :: ps) rest
  | item {c : Byte} {p rest : List Byte} {ps : List Piece} (hc : c ≠ 100) (h : Reads p ps rest) :
    Reads (37 :: c :: p) (.item c :: ps) rest
  -- the date is not at the end
  | date {c : Byte} {p rest : List Byte} {ps : List Piece} (hc : c ≠ 123) (h : Reads (c :: p) ps rest) :
    Reads (37 :: 100 :: c :: p) (.date none :: ps) rest
  | ownDate {own p rest : List Byte} {ps : List Piece} (hown : 125 ∉ own) (h : Reads p ps rest) :
    Reads (37 :: 100 :: 123 :: (own ++ 125 :: p)) (.date (some own) :: ps) rest

/-- Some `%d{` is never closed. -/
def Unclosed (p : List Byte) : Prop := ∃ ps own, Reads p ps (37 :: 100 :: 123 :: own) ∧ 125 ∉ own

/-- Some `%` is followed by a character that is no item. -/
def Unknown (p : List Byte) : Prop :=
  ∃ ps c rest, Reads p ps (37 :: c :: rest) ∧ c ≠ 100 ∧ formatItems.lookup [c] = none

/-- The pattern ends in `%d`. -/
def EndsInDate (p : List Byte) : Prop := ∃ ps, Reads p ps [37, 100]

/-- What can be left of a pattern behind its pieces. -/
def IsTail (rest : List Byte) : Prop :=
  rest = [] ∨ rest = [37] ∨ rest = [37, 100] ∨ ∃ own, rest = 37 :: 100 :: 123 :: own ∧ 125 ∉ own

theorem exists_reads (p : List Byte) : ∃ ps rest, Reads p ps rest ∧ IsTail rest := by
  induction hlength : p.length using Nat.strong_induction_on generalizing p with
  | _ n ih =>
    have hshorter : ∀ q : List Byte, q.length < p.length → ∃ ps rest, Reads q ps rest ∧ IsTail rest :=
      fun q hq => ih q.length (hlength ▸ hq) q rfl
    clear ih hlength
    match p with
    | [] => exact ⟨[], [], .done _, .inl rfl⟩
    | c :: p =>
      by_cases hc : c = 37
      · subst hc
        match p with
        | [] => exact ⟨[], _, .done _, .inr (.inl rfl)⟩
        | c :: p =>
          by_cases hd : c = 100
          · subst hd
            match p with
            | [] => exact ⟨[], _, .done _, .inr (.inr (.inl rfl))⟩
            | c :: p =>
              by_cases hbrace : c = 123
              · subst hbrace
                by_cases hclosed : 125 ∈ p
                · obtain ⟨own, p', rfl, hown⟩ := List.eq_append_cons_of_mem hclosed
                  obtain ⟨ps, rest, hreads, hrest⟩ := hshorter p'
                    (by simp only [List.length_cons, List.length_append]; omega)
                  exact ⟨_, rest, .ownDate hown hreads, hrest⟩
                · exact ⟨[], _, .done _, .inr (.inr (.inr ⟨p, rfl, hclosed⟩))⟩
              · obtain ⟨ps, rest, hreads, hrest⟩ := hshorter (c :: p) (by simp only [List.length_cons]; omega)
                exact ⟨_, rest, .date hbrace hreads, hrest⟩
          · obtain ⟨ps, rest, hreads, hrest⟩ := hshorter p (by simp only [List.length_cons]; omega)
            exact ⟨_, rest, .item hd hreads, hrest⟩
      · obtain ⟨ps, rest, hreads, hrest⟩ := hshorter p (by simp only [List.length_cons]; omega)
        exact ⟨_, rest, .char hc hreads, hrest⟩

/-! ### What the scanner makes of it -/

/-- What a piece does to the variables of the loop. -/
def Scan.piece (s : Scan) : Piece → Scan
  | .char c => { s with tmp := s.tmp ++ [c] }
  | .item c => s.pushTmp.pushItem c
  | .date own => { s.pushTmp.pushItem 100 with dateFormat := s.dateFormat ++ own.getD [] }

section

variable {s : Scan} {c : Byte} (rest : List Byte)

private theorem scan_char (hnormal : s.parseNormalString = true) (hc : c ≠ 37) :
    scan s (c :: rest) = scan { s with tmp := s.tmp ++ [c] } rest := by
  rw [scan.eq_def]
  dsimp only
  rw [if_neg hc, if_pos hnormal]

private theorem scan_percent (hnormal : s.parseNormalString = true) :
    scan s (37 :: rest) = scan { s.pushTmp with parseNormalString := false } rest := by
  rw [scan.eq_def]
  dsimp only
  rw [if_pos rfl, if_pos hnormal]

variable (hitem : s.parseNormalString = false)

include hitem

private theorem not_normal : ¬ s.parseNormalString = true := by
  rw [hitem]
  exact Bool.false_ne_true

private theorem scan_item (hc : c ≠ 100) : scan s (c :: rest) = scan (s.pushItem c) rest := by
  rw [scan.eq_def]
  dsimp only
  by_cases hpercent : c = 37
  · rw [if_pos hpercent, if_neg (not_normal hitem)]
  · rw [if_neg hpercent, if_neg (not_normal hitem), if_pos hc]

private theorem scan_date (hc : c ≠ 123) : scan s (100 :: c :: rest) = scan (s.pushItem 100) (c :: rest) := by
  rw [scan.eq_def]
  dsimp only
  rw [if_neg (by decide), if_neg (not_normal hitem), if_neg (by decide), if_pos hc]

private theorem scan_ownDate : scan s (100 :: 123 :: rest) = scanBraces (s.pushItem 100) rest := by
  rw [scan.eq_def]
  dsimp only
  rw [if_neg (by decide), if_neg (not_normal hitem), if_neg (by decide), if_neg (by decide)]

private theorem scan_endDate : scan s [100] = none := by
  rw [scan.eq_def]
  dsimp only
  rw [if_neg (by decide), if_neg (not_normal hitem), if_neg (by decide)]

end

private theorem scanBraces_eq {own : List Byte} (hown : 125 ∉ own) (s : Scan) (p : List Byte) :
    scanBraces s (own ++ 125 :: p) = scan { s with dateFormat := s.dateFormat ++ own } p := by
  induction own generalizing s with
  | nil =>
    rw [List.nil_append, scanBraces, if_neg (by simp), List.append_nil]
  | cons c own ih =>
    rw [List.mem_cons, not_or] at hown
    rw [List.cons_append, scanBraces, if_pos (Ne.symm hown.1), ih hown.2]
    simp

private theorem scanBraces_unclosed {own : List Byte} (hown : 125 ∉ own) (s : Scan) : scanBraces s own = none := by
  induction own generalizing s with
  | nil => rfl
  | cons c own ih =>
    rw [List.mem_cons, not_or] at hown
    rw [scanBraces, if_pos (Ne.symm hown.1), ih hown.2]

/-- The scanner goes through the pieces. -/
theorem scan_reads {p rest : List Byte} {ps : List Piece} (h : Reads p ps rest) {s : Scan}
    (hnormal : s.parseNormalString = true) : scan s p = scan (ps.foldl Scan.piece s) rest := by
  induction h generalizing s with
  | done => rfl
  | char hc _ ih =>
    rw [scan_char _ hnormal hc, List.foldl_cons]
    exact ih hnormal
  | item hc _ ih =>
    rw [scan_percent _ hnormal, scan_item _ rfl hc, List.foldl_cons]
    exact ih rfl
  | date hc _ ih =>
    have hpiece : Scan.pushItem { s.pushTmp with parseNormalString := false } 100 = s.piece (.date none) := by
      simp [Scan.piece, Scan.pushTmp, Scan.pushItem]
    rw [scan_percent _ hnormal, scan_date _ rfl hc, List.foldl_cons, hpiece]
    exact ih rfl
  | ownDate hown _ ih =>
    rw [scan_percent _ hnormal, scan_ownDate _ rfl, scanBraces_eq hown, List.foldl_cons]
    exact ih rfl

theorem Reads.trans {p mid rest : List Byte} {ps ps' : List Piece} (h : Reads p ps mid) (h' : Reads mid ps' rest) :
    Reads p (ps ++ ps') rest := by
  induction h with
  | done => exact h'
  | char hc _ ih => exact .char hc (ih h')
  | item hc _ ih => exact .item hc (ih h')
  | date hc _ ih => exact .date hc (ih h')
  | ownDate hown _ ih => exact .ownDate hown (ih h')

theorem Reads.of_mem_item {p rest : List Byte} {ps : List Piece} (h : Reads p ps rest) {c : Byte}
    (hmem : .item c ∈ ps) : c ≠ 100 ∧ ∃ ps' rest', Reads p ps' (37 :: c :: rest') := by
  induction h with
  | done => exact absurd hmem List.not_mem_nil
  | char hc _ ih =>
    obtain ⟨hne, ps', rest', hreads⟩ := ih (by simpa using hmem)
    exact ⟨hne, _, rest', .char hc hreads⟩
  | @item c' p _ _ hc _ ih =>
    by_cases hsame : c = c'
    · subst hsame
      exact ⟨hc, [], p, .done _⟩
    · obtain ⟨hne, ps', rest', hreads⟩ := ih (by simpa [hsame] using hmem)
      exact ⟨hne, _, rest', .item hc hreads⟩
  | date hc _ ih =>
    obtain ⟨hne, ps', rest', hreads⟩ := ih (by simpa using hmem)
    exact ⟨hne, _, rest', .date hc hreads⟩
  | ownDate hown _ ih =>
    obtain ⟨hne, ps', rest', hreads⟩ := ih (by simpa using hmem)
    exact ⟨hne, _, rest', .ownDate hown hreads⟩

/-- The variables in front of the loop. -/
def Scan.start : Scan := ⟨[], [], [], true⟩

/-- The variables behind some pieces. -/
def Scan.ofPieces (ps : List Piece) : Scan := (ps.foldl Scan.piece .start).pushTmp

private theorem foldl_normal {s : Scan} (hnormal : s.parseNormalString = true) (ps : List Piece) :
    (ps.foldl Scan.piece s).parseNormalString = true := by
  induction ps generalizing s with
  | nil => exact hnormal
  | cons piece ps ih =>
    rw [List.foldl_cons]
    apply ih
    cases piece with
    | char => exact hnormal
    | item | date => rfl

/-- The formatter that a pattern makes; a single `%` at its end is dropped. -/
theorem new_eq {p rest : List Byte} {ps : List Piece} (h : Reads p ps rest) (hrest : rest = [] ∨ rest = [37]) :
    LogFormatter.new p = some ⟨p, (build (Scan.ofPieces ps).dateFormat (Scan.ofPieces ps).patterns).1,
      (build (Scan.ofPieces ps).dateFormat (Scan.ofPieces ps).patterns).2⟩ := by
  have hscan : scan .start p = scan (ps.foldl Scan.piece .start) rest := scan_reads h rfl
  have hnormal : (ps.foldl Scan.piece .start).parseNormalString = true := foldl_normal rfl ps
  rw [LogFormatter.new, ← Scan.start, hscan]
  rcases hrest with rfl | rfl
  · rfl
  · rw [scan_percent _ hnormal]
    rfl

/-- At the end and in an open brace, `at` throws. -/
theorem new_eq_none {p : List Byte} (h : Unclosed p ∨ EndsInDate p) : LogFormatter.new p = none := by
  rw [LogFormatter.new, Option.map_eq_none_iff, ← Scan.start]
  rcases h with ⟨ps, own, hreads, hown⟩ | ⟨ps, hreads⟩
  · rw [scan_reads hreads rfl, scan_percent _ (foldl_normal rfl ps), scan_ownDate _ rfl, scanBraces_unclosed hown]
  · rw [scan_reads hreads rfl, scan_percent _ (foldl_normal rfl ps), scan_endDate rfl]

/-! ### Unknown items -/

/-- What a piece adds to the items. -/
def Piece.pattern : Piece → Option (Nat × List Byte)
  | .char _ => none
  | .item c => some (1, [c])
  | .date _ => some (1, [100])

private theorem mem_pushTmp {s : Scan} {b : Nat × List Byte} (hb : b.1 ≠ 0) :
    b ∈ s.pushTmp.patterns ↔ b ∈ s.patterns := by
  have hne : b ≠ (0, s.tmp) := fun heq => hb (congrArg Prod.fst heq)
  simp only [Scan.pushTmp]
  split <;> simp [hne]

theorem mem_ofPieces {b : Nat × List Byte} (hb : b.1 ≠ 0) (ps : List Piece) :
    b ∈ (Scan.ofPieces ps).patterns ↔ ∃ piece ∈ ps, piece.pattern = some b := by
  suffices h : ∀ s : Scan, b ∈ (ps.foldl Scan.piece s).patterns ↔
      b ∈ s.patterns ∨ ∃ piece ∈ ps, piece.pattern = some b by
    rw [Scan.ofPieces, mem_pushTmp hb, h]
    simp [Scan.start]
  induction ps with
  | nil => simp
  | cons piece ps ih =>
    intro s
    have hpiece : b ∈ (s.piece piece).patterns ↔ b ∈ s.patterns ∨ piece.pattern = some b := by
      cases piece with
      | char c => simp [Scan.piece, Piece.pattern]
      | item c => simp [Scan.piece, Piece.pattern, Scan.pushItem, mem_pushTmp hb, eq_comm]
      | date own => simp [Scan.piece, Piece.pattern, Scan.pushItem, mem_pushTmp hb, eq_comm]
    rw [List.foldl_cons, ih, hpiece]
    simp [or_assoc]

private theorem build_isError (dateFormat : List Byte) (patterns : List (Nat × List Byte)) :
    (build dateFormat patterns).2 = true ↔
      ∃ b ∈ patterns, b.1 ≠ 0 ∧ b.2 ≠ bytes "d" ∧ formatItems.lookup b.2 = none := by
  induction patterns with
  | nil => simp [build]
  | cons b patterns ih =>
    obtain ⟨kind, str⟩ := b
    rw [build, List.exists_mem_cons_iff, ← ih]
    by_cases hkind : kind = 0
    · simp [hkind]
    · by_cases hdate : str = bytes "d"
      · simp [hkind, hdate]
      · cases hitem : formatItems.lookup str <;> simp [hkind, hdate]

theorem bytes_d : bytes "d" = [100] := by decide +kernel

/-- The error is set for an item that is unknown. -/
theorem isError_iff {p rest : List Byte} {ps : List Piece} (h : Reads p ps rest) :
    (build (Scan.ofPieces ps).dateFormat (Scan.ofPieces ps).patterns).2 = true ↔
      ∃ c, .item c ∈ ps ∧ formatItems.lookup [c] = none := by
  rw [build_isError, bytes_d]
  constructor
  · rintro ⟨b, hmem, hb, hdate, hitem⟩
    obtain ⟨piece, hpiece, hpattern⟩ := (mem_ofPieces hb ps).1 hmem
    cases piece with
    | char c => cases hpattern
    | item c =>
      cases hpattern
      exact ⟨c, hpiece, hitem⟩
    | date own =>
      cases hpattern
      exact absurd rfl hdate
  · rintro ⟨c, hmem, hitem⟩
    have hc : c ≠ 100 := (h.of_mem_item hmem).1
    exact ⟨(1, [c]), (mem_ofPieces (by simp) ps).2 ⟨_, hmem, rfl⟩, by simp, by simpa using hc, hitem⟩

/-- The constructor returns, with the right error flag, just if the pattern neither leaves a brace open nor ends in
`%d`. -/
theorem new_iff (p : List Byte) :
    (∃ f, LogFormatter.new p = some f ∧ (f.isError = true ↔ Unclosed p ∨ Unknown p)) ↔
      ¬ Unclosed p ∧ ¬ EndsInDate p := by
  constructor
  · rintro ⟨f, hnew, -⟩
    constructor
    · intro hunclosed
      rw [new_eq_none (.inl hunclosed)] at hnew
      cases hnew
    · intro hends
      rw [new_eq_none (.inr hends)] at hnew
      cases hnew
  · rintro ⟨hclosed, hends⟩
    have hwhole : ∀ {ps rest}, Reads p ps rest → IsTail rest → rest = [] ∨ rest = [37] := by
      rintro ps rest hreads (hnil | hpercent | hdate | ⟨own, hbrace, hown⟩)
      · exact .inl hnil
      · exact .inr hpercent
      · exact absurd ⟨ps, hdate ▸ hreads⟩ hends
      · exact absurd ⟨ps, own, hbrace ▸ hreads, hown⟩ hclosed
    obtain ⟨ps, rest, hreads, hrest⟩ := exists_reads p
    refine ⟨_, new_eq hreads (hwhole hreads hrest), ?_⟩
    rw [or_iff_right hclosed]
    constructor
    · intro herror
      obtain ⟨c, hmem, hitem⟩ := (isError_iff hreads).1 herror
      obtain ⟨hc, ps', rest', hreads'⟩ := hreads.of_mem_item hmem
      exact ⟨ps', c, rest', hreads', hc, hitem⟩
    · rintro ⟨ps', c, mid, hreads', hc, hitem⟩
      -- the rest of the pattern has its pieces too
      obtain ⟨ps₂, rest₂, hreads₂, hrest₂⟩ := exists_reads mid
      have hall : Reads p (ps' ++ .item c :: ps₂) rest₂ := hreads'.trans (.item hc hreads₂)
      have herror := (isError_iff hall).2 ⟨c, by simp, hitem⟩
      have hsame := (new_eq hreads (hwhole hreads hrest)).symm.trans (new_eq hall (hwhole hall hrest₂))
      rw [Option.some.injEq] at hsame
      exact (congrArg LogFormatter.isError hsame).trans herror

/-- `%d` at the end -/
theorem not_new_endsInDate : ¬ ∃ f, LogFormatter.new (bytes "%m%d") = some f ∧
    (f.isError = true ↔ Unclosed (bytes "%m%d") ∨ Unknown (bytes "%m%d")) := by
  rintro ⟨f, hnew, -⟩
  have hnone : LogFormatter.new (bytes "%m%d") = none := by decide +kernel
  rw [hnone] at hnew
  cases hnew

end LogFormatter

end AcidCompute
