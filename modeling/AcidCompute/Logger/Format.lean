import AcidCompute.Base.Numeral
import AcidCompute.Logger.Pattern
import Mathlib.Data.List.ReduceOption

/-!
# Log lines (`LogFormatter::format`)

Each item of a pattern prints its part of an event.  All dates of a pattern have one format, which is what stands in the
braces of all of them, one after the other, and which is empty if none has braces; so they print what they should in a
few patterns only, and in these if each date fits into the buffer of 64 bytes that it is written to (`format_iff`).

What `localtime_r` and `strftime` make of a format and a time is a parameter, as long as there is room for it.
-/

namespace AcidCompute

inductive LogLevel
  | fatal
  | alert
  | crit
  | error
  | warn
  | notice
  | info
  | debug
  | notset
  deriving DecidableEq, Repr

/-- `to_string` -/
def LogLevel.text : LogLevel → List Byte
  | .fatal => bytes "FATAL"
  | .alert => bytes "ALERT"
  | .crit => bytes "CRIT"
  | .error => bytes "ERROR"
  | .warn => bytes "WARN"
  | .notice => bytes "NOTICE"
  | .info => bytes "INFO"
  | .debug => bytes "DEBUG"
  | .notset => bytes "NOTSET"

structure LogEvent where
  level : LogLevel
  content : List Byte
  file : List Byte
  line : BitVec 32
  elapse : BitVec 64
  threadId : BitVec 32
  fiberId : BitVec 64
  time : BitVec 64
  threadName : List Byte
  loggerName : List Byte

section

variable (dateText : List Byte → BitVec 64 → List Byte) (event : LogEvent)

/-- What an item prints if there is room for it. -/
def FormatItem.text : FormatItem → List Byte
  | .message => event.content
  | .level => event.level.text
  | .loggerName => event.loggerName
  | .elapse => intText event.elapse.toInt
  | .fileName => event.file
  | .line => intText event.line.toInt
  | .threadId => numeral 10 event.threadId.toNat
  | .fiberId => numeral 10 event.fiberId.toNat
  | .threadName => event.threadName
  | .percentSign => bytes "%"
  | .tab => [9]
  | .newLine => [10]
  | .string str => str
  | .dateTime format => dateText format event.time

/-- `format(os, event)` of an item, or nothing if it prints a buffer that nothing is known about. -/
def FormatItem.format : FormatItem → Option (List Byte)
  | .dateTime format =>
    -- `strftime` returns 0 if `buffer[64]` has no room for the text and the zero at its end, and the buffer is printed
    -- all the same
    if (dateText format event.time).length < 64 then some (dateText format event.time) else none
  | item => some (item.text dateText event)

namespace LogFormatter

def format (f : LogFormatter) : Option (List Byte) :=
  (f.items.mapM (FormatItem.format dateText event)).map List.flatten

/-- The default argument of `DateTimeFormatItem`. -/
def defaultDateFormat : List Byte := bytes "%Y-%m-%d %H:%M:%S"

/-- What an item prints, as it is documented. -/
def itemText (c : Byte) : List Byte :=
  -- `m`, the message
  if c = 109 then event.content
  -- `p`, the level
  else if c = 112 then event.level.text
  -- `c`, the name of the logger
  else if c = 99 then event.loggerName
  -- `r`, the milliseconds since the logger was created
  else if c = 114 then intText event.elapse.toInt
  -- `f`, the file
  else if c = 102 then event.file
  -- `l`, the line
  else if c = 108 then intText event.line.toInt
  -- `t`, the thread
  else if c = 116 then numeral 10 event.threadId.toNat
  -- `F`, the fiber
  else if c = 70 then numeral 10 event.fiberId.toNat
  -- `N`, the name of the thread
  else if c = 78 then event.threadName
  -- `%`
  else if c = 37 then [37]
  -- `T`, a tab
  else if c = 84 then [9]
  -- `n`, a line break
  else if c = 110 then [10]
  else []

/-- What a piece of a pattern should print. -/
def Piece.render : Piece → List Byte
  | .char c => [c]
  | .item c => itemText event c
  | .date own => dateText (own.getD defaultDateFormat) event.time

end LogFormatter

end

namespace LogFormatter

/-- The pieces of a whole pattern, at the end of which a single `%` says nothing. -/
def Pieces (p : List Byte) (ps : List Piece) : Prop := Reads p ps [] ∨ Reads p ps [37]

/-- The dates of a pattern. -/
def dates (ps : List Piece) : List (Option (List Byte)) :=
  ps.filterMap fun piece => match piece with
    | .date own => some own
    | _ => none

/-- All braces are empty, and no date is without; or there is one format in braces, and other dates only if it is the
default. -/
def DatesAgree (owns : List (Option (List Byte))) : Prop :=
  (∀ own ∈ owns, own = some []) ∨
    ∃ t, owns.reduceOption = [t] ∧ ∀ own ∈ owns, own.getD defaultDateFormat = t

/-- Each date of a pattern has room in the buffer, with the format that it should have. -/
def DatesFit (dateText : List Byte → BitVec 64 → List Byte) (event : LogEvent) (ps : List Piece) : Prop :=
  ∀ own ∈ dates ps, (dateText (own.getD defaultDateFormat) event.time).length < 64

/-! ### What the items print -/

section

variable (dateText : List Byte → BitVec 64 → List Byte) (event : LogEvent) (dateFormat : List Byte)

/-- What an entry of `patterns` prints. -/
def patternText (b : Nat × List Byte) : List Byte :=
  if b.1 = 0 then b.2
  else if b.2 = bytes "d" then dateText dateFormat event.time
  else ((formatItems.lookup b.2).map (FormatItem.text dateText event)).getD []

/-- What a piece prints if all dates have one format. -/
def Piece.text : Piece → List Byte
  | .char c => [c]
  | .item c => ((formatItems.lookup [c]).map (FormatItem.text dateText event)).getD []
  | .date _ => dateText dateFormat event.time

private theorem flatMap_build {patterns : List (Nat × List Byte)} (hok : (build dateFormat patterns).2 = false) :
    (build dateFormat patterns).1.flatMap (FormatItem.text dateText event) =
      patterns.flatMap (patternText dateText event dateFormat) := by
  induction patterns with
  | nil => rfl
  | cons b patterns ih =>
    obtain ⟨kind, str⟩ := b
    rw [build] at hok ⊢
    rw [List.flatMap_cons, patternText]
    by_cases hkind : kind = 0
    · simp only [hkind, if_true, Prod.map_snd, id_eq] at hok ⊢
      rw [Prod.map_fst, List.flatMap_cons, ih hok]
      rfl
    · by_cases hdate : str = bytes "d"
      · simp only [hkind, hdate, if_true, if_false, Prod.map_snd, id_eq] at hok ⊢
        rw [Prod.map_fst, List.flatMap_cons, ih hok]
        rfl
      · cases hitem : formatItems.lookup str with
        | none => simp [hkind, hdate, hitem] at hok
        | some item =>
          simp only [hkind, hdate, hitem, if_false, Prod.map_snd, id_eq] at hok ⊢
          rw [Prod.map_fst, List.flatMap_cons, ih hok]
          rfl

private theorem flatMap_pushTmp (s : Scan) : s.pushTmp.patterns.flatMap (patternText dateText event dateFormat) =
    s.patterns.flatMap (patternText dateText event dateFormat) ++ s.tmp := by
  by_cases htmp : s.tmp = []
  · simp [Scan.pushTmp, htmp]
  · simp [Scan.pushTmp, htmp, patternText]

/-- A character waits in the text, and an item stands behind it. -/
private theorem flatMap_piece (s : Scan) {piece : Piece} (hitem : ∀ c, piece = .item c → c ≠ 100) :
    (s.piece piece).pushTmp.patterns.flatMap (patternText dateText event dateFormat) =
      s.pushTmp.patterns.flatMap (patternText dateText event dateFormat) ++ piece.text dateText event dateFormat := by
  rw [flatMap_pushTmp]
  cases piece with
  | char c => rw [flatMap_pushTmp, List.append_assoc]; rfl
  | item c =>
    have hc : c ≠ 100 := hitem c rfl
    have htmp : (s.piece (.item c)).tmp = [] := rfl
    have hpatterns : (s.piece (.item c)).patterns = s.pushTmp.patterns ++ [(1, [c])] := rfl
    rw [htmp, hpatterns, List.append_nil, List.flatMap_append, List.flatMap_singleton, patternText,
      if_neg (Nat.succ_ne_zero 0), if_neg (by rw [bytes_d]; simpa using hc)]
    rfl
  | date own =>
    have htmp : (s.piece (.date own)).tmp = [] := rfl
    have hpatterns : (s.piece (.date own)).patterns = s.pushTmp.patterns ++ [(1, [100])] := rfl
    rw [htmp, hpatterns, List.append_nil, List.flatMap_append, List.flatMap_singleton, patternText,
      if_neg (Nat.succ_ne_zero 0), if_pos bytes_d.symm]
    rfl

/-- The scanner keeps the pieces in their order. -/
private theorem flatMap_ofPieces {p rest : List Byte} {ps : List Piece} (h : Reads p ps rest) :
    (Scan.ofPieces ps).patterns.flatMap (patternText dateText event dateFormat) =
      ps.flatMap (Piece.text dateText event dateFormat) := by
  have hitems : ∀ c, .item c ∈ ps → c ≠ 100 := fun c hmem => (h.of_mem_item hmem).1
  clear h
  suffices hfold : ∀ s : Scan,
      (ps.foldl Scan.piece s).pushTmp.patterns.flatMap (patternText dateText event dateFormat) =
        s.pushTmp.patterns.flatMap (patternText dateText event dateFormat) ++
          ps.flatMap (Piece.text dateText event dateFormat) from hfold .start
  induction ps with
  | nil => simp
  | cons piece ps ih =>
    intro s
    have hfirst : ∀ c, piece = .item c → c ≠ 100 := fun c heq => hitems c (heq ▸ List.mem_cons_self)
    have hpiece := flatMap_piece dateText event dateFormat s hfirst
    rw [List.foldl_cons, ih (fun c hmem => hitems c (List.mem_cons_of_mem _ hmem)), hpiece, List.flatMap_cons,
      List.append_assoc]

/-- The items print what is documented. -/
private theorem format_item {c : Byte} {item : FormatItem} (h : formatItems.lookup [c] = some item) :
    item.text dateText event = itemText event c := by
  obtain ⟨front, back, htable, -⟩ := List.lookup_eq_some_iff.1 h
  have hmem : ([c], item) ∈ formatItems := by simp [htable]
  have hitems : formatItems = [([109], .message), ([112], .level), ([99], .loggerName), ([114], .elapse),
      ([102], .fileName), ([108], .line), ([116], .threadId), ([70], .fiberId), ([78], .threadName),
      ([37], .percentSign), ([84], .tab), ([110], .newLine)] := by decide +kernel
  have hpercent : bytes "%" = [37] := by decide +kernel
  rw [hitems] at hmem
  simp only [List.mem_cons, Prod.mk.injEq, List.cons.injEq, and_true, List.not_mem_nil, or_false] at hmem
  rcases hmem with ⟨rfl, rfl⟩ | ⟨rfl, rfl⟩ | ⟨rfl, rfl⟩ | ⟨rfl, rfl⟩ | ⟨rfl, rfl⟩ | ⟨rfl, rfl⟩ | ⟨rfl, rfl⟩ |
    ⟨rfl, rfl⟩ | ⟨rfl, rfl⟩ | ⟨rfl, rfl⟩ | ⟨rfl, rfl⟩ | ⟨rfl, rfl⟩ <;>
      simp [FormatItem.text, itemText, hpercent]

/-- There is room for what an item prints. -/
def Fits : FormatItem → Prop
  | .dateTime format => (dateText format event.time).length < 64
  | _ => True

private theorem format_item_eq_some {item : FormatItem} {text : List Byte} :
    item.format dateText event = some text ↔ Fits dateText event item ∧ item.text dateText event = text := by
  cases item with
  | dateTime format =>
    rw [FormatItem.format, Fits, FormatItem.text]
    split <;> simp [*]
  | _ => simp [FormatItem.format, Fits]

private theorem format_eq_some {f : LogFormatter} {text : List Byte} :
    f.format dateText event = some text ↔
      (∀ item ∈ f.items, Fits dateText event item) ∧ f.items.flatMap (FormatItem.text dateText event) = text := by
  obtain ⟨pattern, items, isError⟩ := f
  rw [LogFormatter.format]
  dsimp only
  induction items generalizing text with
  | nil => simp [eq_comm]
  | cons item items ih =>
    have hitems : ∀ texts, items.mapM (FormatItem.format dateText event) = some texts →
        (∀ item ∈ items, Fits dateText event item) ∧
          items.flatMap (FormatItem.text dateText event) = texts.flatten := by
      intro texts htexts
      exact ih.1 (by rw [htexts]; rfl)
    rw [List.mapM_cons, List.forall_mem_cons, List.flatMap_cons]
    constructor
    · intro h
      obtain ⟨texts, htexts, rfl⟩ := Option.map_eq_some_iff.1 h
      obtain ⟨first, hfirst, htexts⟩ := Option.bind_eq_some_iff.1 htexts
      obtain ⟨rest, hrest, htexts⟩ := Option.bind_eq_some_iff.1 htexts
      cases htexts
      obtain ⟨hfits, hflat⟩ := hitems rest hrest
      obtain ⟨hfit, htext⟩ := (format_item_eq_some dateText event).1 hfirst
      exact ⟨⟨hfit, hfits⟩, by rw [htext, hflat, List.flatten_cons]⟩
    · rintro ⟨⟨hfit, hfits⟩, rfl⟩
      obtain ⟨texts, htexts, hflat⟩ := Option.map_eq_some_iff.1 (ih.2 ⟨hfits, rfl⟩)
      have hfirst := (format_item_eq_some dateText event).2 ⟨hfit, rfl⟩
      simp [hfirst, htexts, hflat]

/-- Of the items that are made, the dates alone need room. -/
private theorem fits_build {patterns : List (Nat × List Byte)} (hok : (build dateFormat patterns).2 = false) :
    (∀ item ∈ (build dateFormat patterns).1, Fits dateText event item) ↔
      ((∃ b ∈ patterns, b.1 ≠ 0 ∧ b.2 = bytes "d") → Fits dateText event (.dateTime dateFormat)) := by
  have hlookup : ∀ str item, formatItems.lookup str = some item → Fits dateText event item := by
    intro str item hitem
    obtain ⟨front, back, htable, -⟩ := List.lookup_eq_some_iff.1 hitem
    have hmem : (str, item) ∈ formatItems := by simp [htable]
    have htexts : ∀ entry ∈ formatItems, ∀ format, entry.2 ≠ .dateTime format := by simp [formatItems]
    cases item with
    | dateTime format => exact absurd rfl (htexts _ hmem format)
    | _ => exact True.intro
  induction patterns with
  | nil => simp [build]
  | cons b patterns ih =>
    obtain ⟨kind, str⟩ := b
    rw [build] at hok ⊢
    rw [List.exists_mem_cons_iff]
    by_cases hkind : kind = 0
    · simp only [hkind, if_true, Prod.map_snd, id_eq] at hok ⊢
      rw [Prod.map_fst, List.forall_mem_cons]
      refine (and_congr_right' (ih hok)).trans ?_
      simp [Fits]
    · by_cases hdate : str = bytes "d"
      · simp only [hkind, hdate, if_true, if_false, Prod.map_snd, id_eq] at hok ⊢
        rw [Prod.map_fst, List.forall_mem_cons]
        refine (and_congr_right' (ih hok)).trans ?_
        simp +contextual [hkind]
      · cases hitem : formatItems.lookup str with
        | none => simp [hkind, hdate, hitem] at hok
        | some item =>
          simp only [hkind, hdate, hitem, if_false, Prod.map_snd, id_eq] at hok ⊢
          rw [Prod.map_fst, List.forall_mem_cons]
          refine (and_congr_right' (ih hok)).trans ?_
          simp [hlookup str item hitem]

end

/-! ### One format for all dates -/

private theorem defaultDateFormat_ne_nil : defaultDateFormat ≠ [] := by decide +kernel

private theorem dateFormat_ofPieces (ps : List Piece) :
    (Scan.ofPieces ps).dateFormat = (dates ps).reduceOption.flatten := by
  suffices h : ∀ s : Scan, (ps.foldl Scan.piece s).dateFormat = s.dateFormat ++ (dates ps).reduceOption.flatten from
    h .start
  induction ps with
  | nil => simp [dates]
  | cons piece ps ih =>
    intro s
    rw [List.foldl_cons, ih]
    cases piece with
    | char | item => rfl
    | date own =>
      cases own with
      | none => simp [Scan.piece, dates, List.reduceOption]
      | some t => simp [Scan.piece, dates, List.reduceOption]

/-- The dates have the format of the pattern in a few cases. -/
private theorem datesAgree_iff (owns : List (Option (List Byte))) :
    (∀ own ∈ owns, own.getD defaultDateFormat = owns.reduceOption.flatten) ↔ DatesAgree owns := by
  have hmem : ∀ t, t ∈ owns.reduceOption ↔ some t ∈ owns := fun t => List.reduceOption_mem_iff
  constructor
  · intro hall
    have hempty : owns.reduceOption.flatten = [] → ∀ own ∈ owns, own = some [] := by
      intro hnil own hown
      have hformat := hall own hown
      rw [hnil] at hformat
      cases own with
      | none => exact absurd hformat defaultDateFormat_ne_nil
      | some t => exact congrArg some hformat
    match htexts : owns.reduceOption with
    | [] => exact .inl (hempty (by rw [htexts]; rfl))
    | [t] =>
      refine .inr ⟨t, htexts, fun own hown => ?_⟩
      rw [hall own hown, htexts]
      simp
    | t :: t' :: texts =>
      -- both are the format of the pattern, which is longer than the two together
      have ht : t = owns.reduceOption.flatten := hall (some t) ((hmem t).1 (by simp [htexts]))
      have ht' : t' = owns.reduceOption.flatten := hall (some t') ((hmem t').1 (by simp [htexts]))
      refine .inl (hempty ?_)
      have hflatten : owns.reduceOption.flatten.length = t.length + (t'.length + texts.flatten.length) := by
        rw [htexts, List.flatten_cons, List.flatten_cons, List.length_append, List.length_append]
      rw [← List.length_eq_zero_iff]
      rw [ht, ht'] at hflatten
      omega
  · rintro (hempty | ⟨t, htexts, hall⟩)
    · intro own hown
      have hnil : owns.reduceOption.flatten = [] := by
        rw [List.flatten_eq_nil_iff]
        intro t ht
        exact Option.some.inj (hempty (some t) ((hmem t).1 ht))
      rw [hnil, hempty own hown]
      rfl
    · intro own hown
      rw [htexts, hall own hown]
      simp

private theorem length_flatMap_le {α : Type} {f g : α → List Byte} {l : List α}
    (hle : ∀ a ∈ l, (g a).length ≤ (f a).length) : (l.flatMap g).length ≤ (l.flatMap f).length := by
  induction l with
  | nil => exact Nat.le_refl _
  | cons b l ih =>
    rw [List.forall_mem_cons] at hle
    rw [List.flatMap_cons, List.flatMap_cons, List.length_append, List.length_append]
    exact Nat.add_le_add hle.1 (ih hle.2)

/-- Texts that are not longer than others are as long in each place if they are so together. -/
private theorem length_eq_of_flatMap {α : Type} {f g : α → List Byte} {l : List α}
    (hle : ∀ a ∈ l, (g a).length ≤ (f a).length) (heq : (l.flatMap f).length = (l.flatMap g).length) :
    ∀ a ∈ l, (g a).length = (f a).length := by
  induction l with
  | nil => exact fun a ha => absurd ha List.not_mem_nil
  | cons b l ih =>
    rw [List.forall_mem_cons] at hle ⊢
    have hrest := length_flatMap_le hle.2
    rw [List.flatMap_cons, List.flatMap_cons, List.length_append, List.length_append] at heq
    have hfirst := hle.1
    exact ⟨by omega, ih hle.2 (by omega)⟩

private theorem mem_dates {ps : List Piece} {own : Option (List Byte)} : own ∈ dates ps ↔ .date own ∈ ps := by
  rw [dates, List.mem_filterMap]
  constructor
  · rintro ⟨piece, hmem, hpiece⟩
    cases piece with
    | char | item => cases hpiece
    | date own' =>
      cases hpiece
      exact hmem
  · intro hmem
    exact ⟨_, hmem, rfl⟩

/-- One format does for all dates that have room just if it is the one of each. -/
private theorem flatMap_text_iff {ps : List Piece} (hknown : ∀ c, .item c ∈ ps → (formatItems.lookup [c]).isSome)
    (dateFormat : List Byte) :
    (∀ (dateText : List Byte → BitVec 64 → List Byte) (event : LogEvent), DatesFit dateText event ps →
      ps.flatMap (Piece.text dateText event dateFormat) = ps.flatMap (Piece.render dateText event)) ↔
        ∀ own ∈ dates ps, own.getD defaultDateFormat = dateFormat := by
  have hitem : ∀ (dateText : List Byte → BitVec 64 → List Byte) event c, .item c ∈ ps →
      (Piece.item c).text dateText event dateFormat = (Piece.item c).render dateText event := by
    intro dateText event c hmem
    obtain ⟨item, hlookup⟩ := Option.isSome_iff_exists.1 (hknown c hmem)
    rw [Piece.text, hlookup, Piece.render, ← format_item dateText event hlookup]
    rfl
  constructor
  · intro hall own hown
    by_contra hne
    -- a date prints something for the format of the pattern only
    let dateText (format : List Byte) (_ : BitVec 64) : List Byte := if format = dateFormat then [0] else []
    let event : LogEvent := ⟨.notset, [], [], 0, 0, 0, 0, 0, [], []⟩
    have hle : ∀ piece ∈ ps,
        (piece.render dateText event).length ≤ (piece.text dateText event dateFormat).length := by
      intro piece hmem
      cases piece with
      | char c => exact Nat.le_refl _
      | item c => rw [hitem dateText event c hmem]
      | date own' =>
        simp only [Piece.render, Piece.text, dateText, if_true]
        split <;> simp
    have hfit : DatesFit dateText event ps := by
      intro own' _
      simp only [dateText]
      split <;> decide
    have hdate := length_eq_of_flatMap hle (congrArg List.length (hall dateText event hfit)) _ (mem_dates.1 hown)
    simp [Piece.render, Piece.text, dateText, hne] at hdate
  · intro hall dateText event _
    rw [List.flatMap_def, List.flatMap_def]
    congr 1
    apply List.map_congr_left
    intro piece hmem
    cases piece with
    | char c => rfl
    | item c => exact hitem dateText event c hmem
    | date own => rw [Piece.text, Piece.render, hall own (mem_dates.2 hmem)]

/-- What the formatter of some pieces prints, if there is room for the dates. -/
private theorem format_eq {p : List Byte} {f : LogFormatter} (hnew : LogFormatter.new p = some f)
    (hok : f.isError = false) {ps : List Piece} (hps : Pieces p ps) :
    (∀ c, .item c ∈ ps → (formatItems.lookup [c]).isSome) ∧ ∀ dateText event text,
      f.format dateText event = some text ↔
        (∀ own ∈ dates ps, (dateText (dates ps).reduceOption.flatten event.time).length < 64) ∧
          ps.flatMap (Piece.text dateText event (dates ps).reduceOption.flatten) = text := by
  obtain ⟨rest, hreads, hrest⟩ : ∃ rest, Reads p ps rest ∧ (rest = [] ∨ rest = [37]) := by
    rcases hps with hreads | hreads
    · exact ⟨[], hreads, .inl rfl⟩
    · exact ⟨[37], hreads, .inr rfl⟩
  rw [new_eq hreads hrest, Option.some.injEq] at hnew
  subst hnew
  constructor
  · intro c hmem
    by_contra hnone
    rw [Option.not_isSome_iff_eq_none] at hnone
    have herror := (isError_iff hreads).2 ⟨c, hmem, hnone⟩
    exact absurd (hok.symm.trans herror) Bool.false_ne_true
  · intro dateText event text
    -- the items of the dates are those of the pieces
    have hdate : (∃ b ∈ (Scan.ofPieces ps).patterns, b.1 ≠ 0 ∧ b.2 = bytes "d") ↔ ∃ own, own ∈ dates ps := by
      constructor
      · rintro ⟨b, hmem, hkind, hdate⟩
        obtain ⟨piece, hpiece, hpattern⟩ := (mem_ofPieces hkind ps).1 hmem
        rw [bytes_d] at hdate
        cases piece with
        | char c => cases hpattern
        | item c =>
          cases hpattern
          exact absurd (List.cons.inj hdate).1 (hreads.of_mem_item hpiece).1
        | date own => exact ⟨own, mem_dates.2 hpiece⟩
      · rintro ⟨own, hown⟩
        refine ⟨(1, [100]), (mem_ofPieces (by decide) ps).2 ⟨.date own, mem_dates.1 hown, rfl⟩, by decide, ?_⟩
        exact bytes_d.symm
    rw [format_eq_some, fits_build dateText event _ hok, hdate, flatMap_build dateText event _ hok,
      flatMap_ofPieces dateText event _ hreads, dateFormat_ofPieces, exists_imp]
    rfl

private theorem exists_pieces {p : List Byte} {f : LogFormatter} (hnew : LogFormatter.new p = some f) :
    ∃ ps, Pieces p ps := by
  have hsome : LogFormatter.new p ≠ none := by
    rw [hnew]
    exact Option.some_ne_none f
  obtain ⟨ps, rest, hreads, hrest⟩ := exists_reads p
  rcases hrest with rfl | rfl | rfl | ⟨own, rfl, hown⟩
  · exact ⟨ps, .inl hreads⟩
  · exact ⟨ps, .inr hreads⟩
  · exact absurd (new_eq_none (.inr ⟨ps, hreads⟩)) hsome
  · exact absurd (new_eq_none (.inl ⟨ps, own, hreads, hown⟩)) hsome

/-- What a pattern without an error prints is what its pieces should print, for all events whose dates have room, just
if its dates agree; and then for no other events. -/
theorem format_iff {p : List Byte} {f : LogFormatter} (hnew : LogFormatter.new p = some f) (hok : f.isError = false) :
    (∃ ps, Pieces p ps) ∧ ∀ ps, Pieces p ps →
      ((∀ dateText event, DatesFit dateText event ps →
          f.format dateText event = some (ps.flatMap (Piece.render dateText event))) ↔ DatesAgree (dates ps)) ∧
        (DatesAgree (dates ps) → ∀ dateText event,
          f.format dateText event = some (ps.flatMap (Piece.render dateText event)) ↔ DatesFit dateText event ps) := by
  refine ⟨exists_pieces hnew, fun ps hps => ?_⟩
  obtain ⟨hknown, hformat⟩ := format_eq hnew hok hps
  have htext := flatMap_text_iff hknown (dates ps).reduceOption.flatten
  have hagree : DatesAgree (dates ps) → ∀ dateText event,
      f.format dateText event = some (ps.flatMap (Piece.render dateText event)) ↔ DatesFit dateText event ps := by
    intro hagree dateText event
    have hown := (datesAgree_iff _).2 hagree
    rw [hformat]
    constructor
    · rintro ⟨hfits, -⟩ own hmem
      rw [hown own hmem]
      exact hfits own hmem
    · intro hfits
      refine ⟨fun own hmem => ?_, htext.2 hown dateText event hfits⟩
      have hfit := hfits own hmem
      rwa [hown own hmem] at hfit
  refine ⟨⟨fun hall => ?_, fun h dateText event hfits => (hagree h dateText event).2 hfits⟩, hagree⟩
  rw [← datesAgree_iff, ← htext]
  exact fun dateText event hfits => ((hformat dateText event _).1 (hall dateText event hfits)).2

/-- `%m%%%d`, with `%Y` in braces -/
private def yearFormatter : LogFormatter :=
  ⟨bytes "%m%%%d\x7b%Y\x7d", [.message, .percentSign, .dateTime (bytes "%Y")], false⟩

/-- An event with the content `on`. -/
private def briefEvent : LogEvent := ⟨.info, bytes "on", [], 0, 0, 0, 0, 0, [], []⟩

theorem format_iff_year :
    yearFormatter.format (fun _ _ => bytes "2024") briefEvent = some (bytes "on%2024") ∧
      yearFormatter.format (fun _ _ => List.replicate 64 48) briefEvent ≠
        some (bytes "on%" ++ List.replicate 64 48) := by
  have hpattern : bytes "%m%%%d\x7b%Y\x7d" = [37, 109, 37, 37, 37, 100, 123, 37, 89, 125] := by decide +kernel
  have hpieces : Pieces (bytes "%m%%%d\x7b%Y\x7d") [.item 109, .item 37, .date (some [37, 89])] := by
    rw [hpattern]
    exact .inl (.item (by decide) (.item (by decide) (.ownDate (show 125 ∉ [37, 89] by decide) (.done []))))
  have hnew : LogFormatter.new (bytes "%m%%%d\x7b%Y\x7d") = some yearFormatter := by decide +kernel
  have hformat := ((format_iff hnew rfl).2 _ hpieces).2 (.inr ⟨[37, 89], by decide, by decide⟩)
  constructor
  · have hfits : DatesFit (fun _ _ => bytes "2024") briefEvent [.item 109, .item 37, .date (some [37, 89])] := by
      simp [DatesFit, dates, bytes]
    exact ((hformat _ briefEvent).2 hfits).trans (by decide +kernel)
  · intro hsame
    have hfits := (hformat (fun _ _ => List.replicate 64 48) briefEvent).1 (hsame.trans (by decide +kernel))
    simp [DatesFit, dates] at hfits

/-- Two dates with formats of their own have that of both. -/
theorem not_format_twoDates : ¬ ∀ p f ps, LogFormatter.new p = some f → f.isError = false → Pieces p ps →
    ∀ dateText event, f.format dateText event = some (ps.flatMap (Piece.render dateText event)) := by
  intro hall
  have hpattern : bytes "%d\x7b%Y\x7d%d\x7b%m\x7d" =
      [37, 100, 123, 37, 89, 125, 37, 100, 123, 37, 109, 125] := by decide +kernel
  have hpieces : Pieces (bytes "%d\x7b%Y\x7d%d\x7b%m\x7d") [.date (some [37, 89]), .date (some [37, 109])] := by
    rw [hpattern]
    exact .inl (.ownDate (show 125 ∉ [37, 89] by decide) (.ownDate (show 125 ∉ [37, 109] by decide) (.done [])))
  have hnew : LogFormatter.new (bytes "%d\x7b%Y\x7d%d\x7b%m\x7d") = some ⟨bytes "%d\x7b%Y\x7d%d\x7b%m\x7d",
      [.dateTime (bytes "%Y%m"), .dateTime (bytes "%Y%m")], false⟩ := by decide +kernel
  have hboth := hall _ _ _ hnew rfl hpieces (fun format _ => format) ⟨.notset, [], [], 0, 0, 0, 0, 0, [], []⟩
  revert hboth
  decide +kernel

end LogFormatter

end AcidCompute
