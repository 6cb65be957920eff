import Rs5cmd.Command.ImportS3cfg
import Rs5cmd.Lib.Sections

/-!
# Replacing a section of the credentials file

A section of an INI text starts at each line whose first character is `[`, and a comment
may follow its name. The scanner of `replace_ini_section` takes a line for a header only
if it ends in `]`, and replaces every section with the header it looks for. Sections are
kept or dropped as a whole: what becomes of one depends on the last header that the
scanner saw.
-/

namespace Rs5cmd

open Sections

/-! ## Sections of a text -/

/-- A line that starts a section. -/
def StartsSection (line : Str) : Prop := Str.startsWith ['['] (Str.trim line) = true

instance : DecidablePred StartsSection := fun line =>
  inferInstanceAs (Decidable (Str.startsWith ['['] (Str.trim line) = true))

/-- A header with the name, and perhaps a comment behind it. -/
def namesSection (name line : Str) : Bool :=
  (Str.stripPrefix (iniHeader name) (Str.trim line)).any fun rest =>
    rest.isEmpty || (rest.dropWhile Str.isWhitespace).head?.any fun c => c == '#' || c == ';'

abbrev IniBlock := Block StartsSection

/-- The sections of a text, with what stands before the first one. -/
def iniOf (text : Str) : Document StartsSection := parse StartsSection (Str.lines text)

theorem items_iniOf (text : Str) : (iniOf text).items = Str.lines text :=
  items_parse (Str.lines text)

/-- The text of a section with the name. -/
def IsSectionOf (name text : Str) : Prop :=
  ∃ b : IniBlock, Str.lines text = b.items ∧ isHeader name b.head = true

/-- Replacing keeps the preamble and the other sections, leaves the named section once
with the lines of the replacement, and does nothing the second time. -/
structure ReplacesOnly (text name replacement : Str) : Prop where
  preamble : (iniOf (replaceIniSection text name replacement)).preamble = (iniOf text).preamble
  others : (iniOf (replaceIniSection text name replacement)).sections.filter
      (fun b => !namesSection name b.head) =
    (iniOf text).sections.filter fun b => !namesSection name b.head
  once : ((iniOf (replaceIniSection text name replacement)).sections.filter
      fun b => namesSection name b.head).map Block.items = [Str.lines replacement]
  stable : replaceIniSection (replaceIniSection text name replacement) name replacement =
    replaceIniSection text name replacement

/-- The last header that the scanner takes for one. -/
def lastBracketed (bs : List IniBlock) : Option IniBlock :=
  (bs.filter fun b => isBracketed b.head).getLast?

/-- The scanner finds the sections as they are. -/
structure ScannedAsWritten (text name replacement : Str) : Prop where
  /-- A header is the named one exactly when the last one up to it that ends in `]` is
  the bare header. -/
  headers : ∀ before b after, (iniOf text).sections = before ++ b :: after →
    namesSection name b.head = (lastBracketed (before ++ [b])).any fun h => isHeader name h.head
  /-- The bare header does not come twice. -/
  single : (iniOf text).sections.countP (fun b => isHeader name b.head) ≤ 1
  /-- Outside of the named section no line ends in a carriage return of its own. -/
  preambleCr : ∀ l ∈ (iniOf text).preamble, Str.endsWith '\r' l = false
  othersCr : ∀ b ∈ (iniOf text).sections, namesSection name b.head = false →
    ∀ l ∈ b.items, Str.endsWith '\r' l = false
  replacementCr : Str.endsWith '\r' replacement = false

/-! ## What the scanner does to a section -/

variable {name replacement text : Str} {b : IniBlock} {bs : List IniBlock} {skip : Bool}

/-- Whether lines are skipped after a header. -/
def skips (name : Str) (skip : Bool) (b : IniBlock) : Bool :=
  if isBracketed b.head then isHeader name b.head else skip

/-- What comes out for each section: itself, the replacement, or nothing. -/
def pieces (name : Str) : Bool → List IniBlock → List (Option IniBlock)
  | _, [] => []
  | skip, b :: bs =>
    (if isHeader name b.head then [none] else if skips name skip b then [] else [some b]) ++
      pieces name (skips name skip b) bs

theorem isBracketed_of_isHeader {line : Str} (h : isHeader name line = true) :
    isBracketed line = true := by
  have htrim : Str.trim line = iniHeader name := eq_of_beq h
  rw [isBracketed, htrim]
  simp [iniHeader, Str.startsWith, Str.endsWith, List.getLast?_cons]

theorem skips_of_isHeader (h : isHeader name b.head = true) (skip : Bool) : skips name skip b = true := by
  rw [skips, if_pos (isBracketed_of_isHeader h), h]

theorem namesSection_of_isHeader {line : Str} (h : isHeader name line = true) :
    namesSection name line = true := by
  have htrim : Str.trim line = iniHeader name := eq_of_beq h
  have hself : Str.stripPrefix (iniHeader name) (iniHeader name) = some [] := by
    have := Str.stripPrefix_append (iniHeader name) []
    rwa [List.append_nil] at this
  rw [namesSection, htrim, hself]
  rfl

/-- Lines are skipped after another header only if they were before it. -/
theorem skipping_of_skips (h : ¬ isHeader name b.head = true) (hskips : skips name skip b = true) :
    skip = true := by
  unfold skips at hskips
  split at hskips
  · exact absurd hskips h
  · exact hskips

theorem startsSection_of_isBracketed {line : Str} (h : isBracketed line = true) :
    StartsSection line := (Bool.and_eq_true_iff.mp h).1

/-- A line that starts no section is kept or skipped. -/
theorem line_of_not_starts {line : Str} (h : ¬ StartsSection line) (s : IniScan) :
    s.line name replacement line =
      if s.skipping then s else { s with out := s.out ++ line ++ ['\n'] } := by
  have hb : isBracketed line = false := by
    by_contra hne
    exact h (startsSection_of_isBracketed (by simpa using hne))
  simp [IniScan.line, hb]

theorem foldl_plain {ls : List Str} (h : ∀ l ∈ ls, ¬ StartsSection l) (s : IniScan) :
    ls.foldl (IniScan.line name replacement) s =
      if s.skipping then s else { s with out := s.out ++ Str.unlines ls } := by
  induction ls generalizing s with
  | nil => simp [Str.unlines]
  | cons l ls ih =>
    rw [List.foldl_cons, line_of_not_starts (h l List.mem_cons_self),
      ih fun k hk => h k (List.mem_cons_of_mem l hk)]
    cases hs : s.skipping with
    | true => simp [hs]
    | false => simp [Str.unlines_cons]

/-- **A section is replaced, dropped or kept as a whole.** -/
theorem foldl_items (b : IniBlock) (s : IniScan) :
    b.items.foldl (IniScan.line name replacement) s =
      if isHeader name b.head then
        { out := s.out ++ closed replacement, skipping := true, replaced := true }
      else if skips name s.skipping b then s
      else { s with out := s.out ++ Str.unlines b.items, skipping := false } := by
  rw [Block.items, List.foldl_cons, foldl_plain b.body_plain]
  by_cases hexact : isHeader name b.head = true
  · simp [IniScan.line, isBracketed_of_isHeader hexact, hexact]
  · cases hbr : isBracketed b.head with
    | true =>
      have hskips : skips name s.skipping b = false := by
        rw [skips, if_pos hbr]
        exact Bool.eq_false_iff.mpr hexact
      simp [IniScan.line, hbr, hskips, hexact, Str.unlines_cons]
    | false =>
      have hskips : skips name s.skipping b = s.skipping := by
        rw [skips, hbr]
        rfl
      rw [hskips]
      cases hs : s.skipping with
      | true => simp [IniScan.line, hbr, hs, hexact]
      | false => simp [IniScan.line, hbr, hs, hexact, Str.unlines_cons]

/-- The text of a piece. -/
def pieceText (replacement : Str) (piece : Option IniBlock) : Str :=
  match piece with
  | some b => Str.unlines b.items
  | none => closed replacement

theorem foldl_sections (bs : List IniBlock) (s : IniScan) :
    ((bs.flatMap Block.items).foldl (IniScan.line name replacement) s).out =
        s.out ++ (pieces name s.skipping bs).flatMap (pieceText replacement) ∧
      ((bs.flatMap Block.items).foldl (IniScan.line name replacement) s).replaced =
        (s.replaced || (pieces name s.skipping bs).any Option.isNone) := by
  induction bs generalizing s with
  | nil => simp [pieces]
  | cons b bs ih =>
    rw [List.flatMap_cons, List.foldl_append, foldl_items]
    obtain ⟨hout, hreplaced⟩ := ih (if isHeader name b.head then
        { out := s.out ++ closed replacement, skipping := true, replaced := true }
      else if skips name s.skipping b then s
      else { s with out := s.out ++ Str.unlines b.items, skipping := false })
    rw [hout, hreplaced, pieces]
    by_cases hexact : isHeader name b.head = true
    · simp [hexact, skips_of_isHeader hexact, pieceText]
    · cases hskips : skips name s.skipping b with
      | true => simp [hexact, skipping_of_skips hexact hskips]
      | false => simp [hexact, pieceText]

/-! ## The text that comes out -/

/-- The pieces, with the replacement at the end if it is not among them. -/
def allPieces (name : Str) (bs : List IniBlock) : List (Option IniBlock) :=
  let ps := pieces name false bs
  if ps.any Option.isNone then ps else ps ++ [none]

theorem closed_ended (replacement : Str) : Str.endsWith '\n' (closed replacement) = true := by
  unfold closed
  split
  · assumption
  · simp [Str.endsWith]

theorem pieceText_ended (replacement : Str) (piece : Option IniBlock) :
    pieceText replacement piece = [] ∨ Str.endsWith '\n' (pieceText replacement piece) = true := by
  cases piece with
  | none => exact Or.inr (closed_ended replacement)
  | some b => exact Str.unlines_eq_nil_or b.items

theorem ended_append {s t : Str} (hs : s = [] ∨ Str.endsWith '\n' s = true)
    (ht : t = [] ∨ Str.endsWith '\n' t = true) : s ++ t = [] ∨ Str.endsWith '\n' (s ++ t) = true := by
  by_cases hnil : t = []
  · rw [hnil, List.append_nil]
    exact hs
  · rw [Str.endsWith_append '\n' s hnil]
    exact Or.inr (ht.resolve_left hnil)

theorem flatMap_pieceText_ended (replacement : Str) (ps : List (Option IniBlock)) :
    ps.flatMap (pieceText replacement) = [] ∨
      Str.endsWith '\n' (ps.flatMap (pieceText replacement)) = true := by
  induction ps with
  | nil => exact Or.inl rfl
  | cons p ps ih =>
    rw [List.flatMap_cons]
    exact ended_append (pieceText_ended replacement p) ih

/-- **The pieces make up the text.** -/
theorem replaceIniSection_eq (text name replacement : Str) :
    replaceIniSection text name replacement = Str.unlines (iniOf text).preamble ++
      (allPieces name (iniOf text).sections).flatMap (pieceText replacement) := by
  have hlines : Str.lines text = (iniOf text).preamble ++ (iniOf text).sections.flatMap Block.items :=
    (items_iniOf text).symm
  obtain ⟨hout, hreplaced⟩ := @foldl_sections name replacement (iniOf text).sections
    { out := Str.unlines (iniOf text).preamble }
  have hpre : (iniOf text).preamble.foldl (IniScan.line name replacement) {} =
      { out := Str.unlines (iniOf text).preamble } := by
    rw [foldl_plain (iniOf text).plain]
    rfl
  have hended : Str.unlines (iniOf text).preamble ++
        (pieces name false (iniOf text).sections).flatMap (pieceText replacement) = [] ∨
      Str.endsWith '\n' (Str.unlines (iniOf text).preamble ++
        (pieces name false (iniOf text).sections).flatMap (pieceText replacement)) = true :=
    ended_append (Str.unlines_eq_nil_or _) (flatMap_pieceText_ended replacement _)
  simp only [replaceIniSection, hlines, List.foldl_append, hpre, hout, hreplaced, Bool.false_or,
    allPieces]
  split
  · rfl
  · have hnot : ¬ (Str.unlines (iniOf text).preamble ++
          (pieces name false (iniOf text).sections).flatMap (pieceText replacement) ≠ [] ∧
        Str.endsWith '\n' (Str.unlines (iniOf text).preamble ++
          (pieces name false (iniOf text).sections).flatMap (pieceText replacement)) = false) := by
      rintro ⟨hne, hend⟩
      rw [hended.resolve_left hne] at hend
      cases hend
    rw [if_neg hnot, List.flatMap_append, List.append_assoc]
    simp [pieceText]

/-! ## Its sections -/

/-- A section without the carriage returns that its lines still have. -/
def chompBlock (b : IniBlock) : IniBlock where
  head := Str.chompCr b.head
  body := b.body.map Str.chompCr
  head_starts := by
    have h := b.head_starts
    unfold StartsSection at h ⊢
    rwa [Str.trim_chompCr]
  body_plain := by
    intro l hl
    obtain ⟨k, hk, rfl⟩ := List.mem_map.mp hl
    have h := b.body_plain k hk
    unfold StartsSection at h ⊢
    rwa [Str.trim_chompCr]

theorem chompBlock_items (b : IniBlock) : (chompBlock b).items = b.items.map Str.chompCr := rfl

theorem chompBlock_eq_self_iff : chompBlock b = b ↔ ∀ l ∈ b.items, Str.endsWith '\r' l = false := by
  have hmap : ∀ ls : List Str, ls.map Str.chompCr = ls ↔ ∀ l ∈ ls, Str.endsWith '\r' l = false := by
    intro ls
    induction ls with
    | nil => simp
    | cons l ls ih => simp [ih, Str.chompCr_eq_self_iff]
  rw [← hmap, ← chompBlock_items]
  exact ⟨fun h => by rw [h], Block.items_injective⟩

theorem namesSection_chompCr (name line : Str) :
    namesSection name (Str.chompCr line) = namesSection name line := by
  rw [namesSection, namesSection, Str.trim_chompCr]

theorem isHeader_chompCr (name line : Str) :
    isHeader name (Str.chompCr line) = isHeader name line := by
  rw [isHeader, isHeader, Str.trim_chompCr]

/-- The section of the replacement as it stands in the text. -/
theorem exists_closed (name : Str) {r : IniBlock} (hr : Str.lines replacement = r.items) :
    ∃ r' : IniBlock, Str.lines (closed replacement) = r'.items ∧
      (isHeader name r'.head = isHeader name r.head) ∧
      (r' = r ↔ Str.endsWith '\r' replacement = false) := by
  have hne : replacement ≠ [] := by
    rintro rfl
    cases hr
  by_cases hend : Str.endsWith '\n' replacement = true
  · have hlf : replacement.getLast? = some '\n' := by simpa [Str.endsWith] using hend
    refine ⟨r, by rw [closed, if_pos hend, hr], rfl, iff_of_true rfl ?_⟩
    rw [Str.endsWith, hlf]
    rfl
  · obtain ⟨pre, last, hlines, hlines', hlast⟩ :=
      Str.lines_concat_newline hne (Bool.eq_false_iff.mpr hend)
    have hcr : Str.endsWith '\r' replacement = Str.endsWith '\r' last := by
      rw [Str.endsWith, Str.endsWith, hlast]
    rw [closed, if_neg hend, hlines', hcr, ← Str.chompCr_eq_self_iff]
    rw [hr] at hlines
    cases pre with
    | nil =>
      -- the header is the last line
      obtain ⟨hhead, hbody⟩ := List.cons.inj hlines
      refine ⟨chompBlock r, ?_, isHeader_chompCr name r.head, ?_⟩
      · rw [chompBlock_items, hlines]
        rfl
      · rw [← hhead]
        refine ⟨fun h => congrArg Block.head h, fun h => Block.items_injective ?_⟩
        rw [chompBlock_items, Block.items, hbody, List.map_singleton, h]
    | cons first pre =>
      obtain ⟨hhead, htail⟩ := List.cons.inj hlines
      have hbody : r.body = pre ++ [last] := htail
      have hplain : ∀ l ∈ pre ++ [Str.chompCr last], ¬ StartsSection l := by
        intro l hl
        rcases List.mem_append.mp hl with hl | hl
        · refine r.body_plain l ?_
          rw [hbody]
          exact List.mem_append_left _ hl
        · have hplain := r.body_plain last (by rw [hbody]; simp)
          rw [List.mem_singleton.mp hl]
          unfold StartsSection at hplain ⊢
          rwa [Str.trim_chompCr]
      refine ⟨⟨r.head, pre ++ [Str.chompCr last], r.head_starts, hplain⟩, ?_, rfl, ?_⟩
      · exact congrArg (· :: (pre ++ [Str.chompCr last])) hhead.symm
      · rw [Block.ext_iff]
        simp only [hbody, true_and, List.append_cancel_left_eq, List.cons.injEq, and_true]

/-- The section that stands where a piece does. -/
def filled (r : IniBlock) (piece : Option IniBlock) : IniBlock := piece.elim r chompBlock

theorem lines_flatMap_pieceText {r : IniBlock} (hr : Str.lines (closed replacement) = r.items)
    (ps : List (Option IniBlock)) (hps : ∀ b, some b ∈ ps → ∀ l ∈ b.items, '\n' ∉ l) :
    Str.lines (ps.flatMap (pieceText replacement)) = (ps.map (filled r)).flatMap Block.items := by
  induction ps with
  | nil => rfl
  | cons p ps ih =>
    rw [List.flatMap_cons, Str.lines_append (pieceText_ended replacement p),
      ih fun b hb => hps b (List.mem_cons_of_mem p hb), List.map_cons, List.flatMap_cons]
    congr 1
    cases p with
    | none => exact hr
    | some b => exact Str.lines_unlines (hps b List.mem_cons_self)

theorem mem_of_mem_pieces (h : some b ∈ pieces name skip bs) : b ∈ bs := by
  induction bs generalizing skip with
  | nil => cases h
  | cons c bs ih =>
    rw [pieces] at h
    rcases List.mem_append.mp h with h | h
    · split at h
      · cases List.mem_singleton.mp h
      · split at h
        · cases h
        · rw [Option.some.inj (List.mem_singleton.mp h)]
          exact List.mem_cons_self
    · exact List.mem_cons_of_mem c (ih h)

theorem mem_of_mem_allPieces (h : some b ∈ allPieces name bs) : b ∈ bs := by
  simp only [allPieces] at h
  split at h
  · exact mem_of_mem_pieces h
  · rcases List.mem_append.mp h with h | h
    · exact mem_of_mem_pieces h
    · cases List.mem_singleton.mp h

theorem not_mem_of_mem_sections {l : Str} (hb : b ∈ (iniOf text).sections) (hl : l ∈ b.items) :
    '\n' ∉ l := by
  refine Str.not_mem_of_mem_lines (s := text) ?_
  rw [← items_iniOf]
  exact List.mem_append_right _ (List.mem_flatMap.mpr ⟨b, hb, hl⟩)

/-- **The document that comes out.** -/
theorem iniOf_replaceIniSection {r : IniBlock} (hr : Str.lines (closed replacement) = r.items)
    (text name : Str) :
    (iniOf (replaceIniSection text name replacement)).preamble =
        (iniOf text).preamble.map Str.chompCr ∧
      (iniOf (replaceIniSection text name replacement)).sections =
        (allPieces name (iniOf text).sections).map (filled r) := by
  have hpre : ∀ l ∈ (iniOf text).preamble, '\n' ∉ l := by
    intro l hl
    refine Str.not_mem_of_mem_lines (s := text) ?_
    rw [← items_iniOf]
    exact List.mem_append_left _ hl
  have hplain : ∀ l ∈ (iniOf text).preamble.map Str.chompCr, ¬ StartsSection l := by
    intro l hl
    obtain ⟨k, hk, rfl⟩ := List.mem_map.mp hl
    have h := (iniOf text).plain k hk
    unfold StartsSection at h ⊢
    rwa [Str.trim_chompCr]
  let d : Document StartsSection :=
    { preamble := (iniOf text).preamble.map Str.chompCr
      sections := (allPieces name (iniOf text).sections).map (filled r)
      plain := hplain }
  have hd : Str.lines (replaceIniSection text name replacement) = d.items := by
    rw [replaceIniSection_eq, Str.lines_append (Str.unlines_eq_nil_or _), Str.lines_unlines hpre,
      lines_flatMap_pieceText hr _ fun b hb l hl =>
        not_mem_of_mem_sections (mem_of_mem_allPieces hb) hl]
    rfl
  rw [iniOf, hd, parse_items]
  exact ⟨rfl, rfl⟩

/-! ## Sections kept -/

/-- The sections that are kept. -/
def kept (ps : List (Option IniBlock)) : List IniBlock := ps.filterMap id

theorem kept_pieces_cons (name : Str) (skip : Bool) (b : IniBlock) (bs : List IniBlock) :
    kept (pieces name skip (b :: bs)) = (if skips name skip b then [] else [b]) ++
      kept (pieces name (skips name skip b) bs) := by
  rw [pieces, kept, List.filterMap_append, kept]
  congr 1
  by_cases hexact : isHeader name b.head = true
  · rw [if_pos hexact, if_pos (skips_of_isHeader hexact skip)]
    rfl
  · rw [if_neg hexact]
    split
    · rfl
    · rfl

theorem kept_pieces_sublist (name : Str) (skip : Bool) (bs : List IniBlock) :
    (kept (pieces name skip bs)).Sublist bs := by
  induction bs generalizing skip with
  | nil => exact List.Sublist.refl _
  | cons b bs ih =>
    rw [kept_pieces_cons]
    split
    · exact (ih _).cons b
    · exact (ih _).cons_cons b

theorem kept_allPieces (name : Str) (bs : List IniBlock) :
    kept (allPieces name bs) = kept (pieces name false bs) := by
  simp only [allPieces]
  split
  · rfl
  · rw [kept, List.filterMap_append]
    exact List.append_nil _

/-- Each section has the scanner's name for it. -/
def Agrees (name : Str) : Bool → List IniBlock → Prop
  | _, [] => True
  | skip, b :: bs =>
    namesSection name b.head = skips name skip b ∧ Agrees name (skips name skip b) bs

/-- The scanner agrees if it keeps the other sections and none with the name. -/
theorem agrees_iff (name : Str) (skip : Bool) (bs : List IniBlock) :
    Agrees name skip bs ↔
      ((kept (pieces name skip bs)).filter fun b => !namesSection name b.head) =
          (bs.filter fun b => !namesSection name b.head) ∧
        ((kept (pieces name skip bs)).filter fun b => namesSection name b.head) = [] := by
  induction bs generalizing skip with
  | nil => exact iff_of_true trivial ⟨rfl, rfl⟩
  | cons b bs ih =>
    rw [Agrees, ih, kept_pieces_cons]
    cases hskips : skips name skip b with
    | true =>
      cases hnamed : namesSection name b.head with
      | true => simp [hnamed]
      | false =>
        -- a section that is dropped is missing
        have hlen := ((kept_pieces_sublist name true bs).filter
          fun b => !namesSection name b.head).length_le
        simp only [Bool.false_eq_true, false_and, if_true, List.nil_append, false_iff, not_and]
        intro heq
        rw [heq, List.filter_cons_of_pos (by simp [hnamed]), List.length_cons] at hlen
        omega
    | false =>
      cases hnamed : namesSection name b.head with
      | true => simp [hnamed]
      | false => simp [hnamed]

theorem filter_others_filled {r : IniBlock} (hr : namesSection name r.head = true)
    (ps : List (Option IniBlock)) :
    ((ps.map (filled r)).filter fun b => !namesSection name b.head) =
      ((kept ps).filter fun b => !namesSection name b.head).map chompBlock := by
  induction ps with
  | nil => rfl
  | cons p ps ih =>
    cases p with
    | none =>
      rw [List.map_cons, List.filter_cons_of_neg (by simp [filled, hr]), ih]
      rfl
    | some b =>
      have hkept : kept (some b :: ps) = b :: kept ps := rfl
      have hchomp : namesSection name (filled r (some b)).head = namesSection name b.head :=
        namesSection_chompCr name b.head
      rw [List.map_cons, List.filter_cons, hkept, List.filter_cons, hchomp, ih]
      split
      · rfl
      · rfl

theorem length_filter_named_filled {r : IniBlock} (hr : namesSection name r.head = true)
    (ps : List (Option IniBlock)) :
    ((ps.map (filled r)).filter fun b => namesSection name b.head).length =
      ((kept ps).filter fun b => namesSection name b.head).length + ps.countP Option.isNone := by
  induction ps with
  | nil => rfl
  | cons p ps ih =>
    cases p with
    | none =>
      have hkept : kept (none :: ps) = kept ps := rfl
      have hfilled : namesSection name (filled r none).head = true := hr
      rw [List.map_cons, List.filter_cons, if_pos hfilled, List.length_cons, ih, hkept,
        List.countP_cons_of_pos rfl]
      omega
    | some b =>
      have hkept : kept (some b :: ps) = b :: kept ps := rfl
      have hchomp : namesSection name (filled r (some b)).head = namesSection name b.head :=
        namesSection_chompCr name b.head
      rw [List.map_cons, List.filter_cons, hkept, List.filter_cons, hchomp,
        List.countP_cons_of_neg (by simp)]
      split
      · rw [List.length_cons, List.length_cons, ih]
        omega
      · exact ih

/-- If no section with the name is kept, those with the name are the replacement. -/
theorem filter_named_filled {r : IniBlock} {ps : List (Option IniBlock)}
    (hkept : ((kept ps).filter fun b => namesSection name b.head) = []) :
    ∀ b ∈ (ps.map (filled r)).filter fun b => namesSection name b.head, b = r := by
  intro b hb
  obtain ⟨hb, hnamed⟩ := List.mem_filter.mp hb
  obtain ⟨p, hp, rfl⟩ := List.mem_map.mp hb
  cases p with
  | none => rfl
  | some c =>
    have hc : c ∈ kept ps := List.mem_filterMap.mpr ⟨some c, hp, rfl⟩
    have hnamed' : namesSection name c.head = true :=
      (namesSection_chompCr name c.head).symm.trans hnamed
    have hmem : c ∈ (kept ps).filter fun b => namesSection name b.head :=
      List.mem_filter.mpr ⟨hc, hnamed'⟩
    rw [hkept] at hmem
    cases hmem

theorem filter_allPieces_filled (r : IniBlock)
    (hkept : ((kept (pieces name false bs)).filter fun b => namesSection name b.head) = []) :
    ∀ b ∈ ((allPieces name bs).map (filled r)).filter fun b => namesSection name b.head, b = r := by
  rw [← kept_allPieces] at hkept
  exact filter_named_filled hkept

theorem countP_pieces (name : Str) (skip : Bool) (bs : List IniBlock) :
    (pieces name skip bs).countP Option.isNone = bs.countP fun b => isHeader name b.head := by
  induction bs generalizing skip with
  | nil => rfl
  | cons b bs ih =>
    rw [pieces, List.countP_append, ih, List.countP_cons]
    by_cases hexact : isHeader name b.head = true
    · simp [hexact, Nat.add_comm]
    · cases hskips : skips name skip b with
      | true => simp [hexact]
      | false => simp [hexact]

theorem countP_allPieces_pos (name : Str) (bs : List IniBlock) :
    1 ≤ (allPieces name bs).countP Option.isNone := by
  simp only [allPieces]
  split
  · rename_i hany
    obtain ⟨p, hp, hnone⟩ := List.any_eq_true.mp hany
    exact List.countP_pos_iff.mpr ⟨p, hp, hnone⟩
  · rw [List.countP_append]
    exact Nat.le_add_left 1 _

theorem countP_allPieces_eq_one (name : Str) (bs : List IniBlock) :
    (allPieces name bs).countP Option.isNone = 1 ↔
      bs.countP (fun b => isHeader name b.head) ≤ 1 := by
  have hpos := countP_allPieces_pos name bs
  simp only [allPieces] at hpos ⊢
  split
  · rename_i hany
    rw [if_pos hany, countP_pieces] at hpos
    rw [countP_pieces]
    omega
  · rename_i hany
    have hzero : (pieces name false bs).countP Option.isNone = 0 := by
      rw [List.countP_eq_zero]
      intro p hp hnone
      exact hany (List.any_eq_true.mpr ⟨p, hp, hnone⟩)
    rw [List.countP_append, hzero]
    rw [countP_pieces] at hzero
    rw [hzero]
    simp

/-! ## The second time -/

theorem pieces_append (name : Str) (skip : Bool) (bs cs : List IniBlock) :
    pieces name skip (bs ++ cs) =
      pieces name skip bs ++ pieces name (bs.foldl (skips name) skip) cs := by
  induction bs generalizing skip with
  | nil => rfl
  | cons b bs ih => rw [List.cons_append, pieces, pieces, ih, List.append_assoc, List.foldl_cons]

/-- A section that is kept is kept again, and the replacement is replaced. -/
theorem pieces_filled {r : IniBlock} (hr : isHeader name r.head = true) (skip : Bool)
    (bs : List IniBlock) :
    pieces name skip ((pieces name skip bs).map (filled r)) =
      (pieces name skip bs).map (Option.map chompBlock) := by
  induction bs generalizing skip with
  | nil => rfl
  | cons b bs ih =>
    rw [pieces]
    by_cases hexact : isHeader name b.head = true
    · have hnone : filled r none = r := rfl
      rw [if_pos hexact, skips_of_isHeader hexact, List.map_append, List.map_append,
        List.map_singleton, hnone, List.singleton_append, pieces, if_pos hr, skips_of_isHeader hr,
        ih]
      rfl
    · rw [if_neg hexact]
      cases hskips : skips name skip b with
      | true =>
        rw [if_pos rfl, List.nil_append]
        have hskip := skipping_of_skips hexact hskips
        subst hskip
        exact ih true
      | false =>
        have hhead : (filled r (some b)).head = Str.chompCr b.head := rfl
        have hbracketed : isBracketed (Str.chompCr b.head) = isBracketed b.head := by
          rw [isBracketed, isBracketed, Str.trim_chompCr]
        have hagain : skips name skip (filled r (some b)) = false := by
          rw [skips, hhead, hbracketed, isHeader_chompCr]
          exact hskips
        rw [if_neg Bool.false_ne_true, List.map_append, List.map_append, List.map_singleton,
          List.singleton_append, pieces, hagain, hhead, isHeader_chompCr, if_neg hexact,
          if_neg Bool.false_ne_true, ih]
        rfl

theorem any_isNone_map (ps : List (Option IniBlock)) :
    (ps.map (Option.map chompBlock)).any Option.isNone = ps.any Option.isNone := by
  rw [List.any_map]
  congr 1
  funext p
  cases p with
  | none => rfl
  | some b => rfl

theorem allPieces_filled {r : IniBlock} (hr : isHeader name r.head = true) (bs : List IniBlock) :
    allPieces name ((allPieces name bs).map (filled r)) =
      (allPieces name bs).map (Option.map chompBlock) := by
  by_cases hany : (pieces name false bs).any Option.isNone = true
  · have hall : allPieces name bs = pieces name false bs := by
      simp only [allPieces]
      rw [if_pos hany]
    rw [hall]
    simp only [allPieces]
    rw [pieces_filled hr, any_isNone_map, if_pos hany]
  · have hall : allPieces name bs = pieces name false bs ++ [none] := by
      simp only [allPieces]
      rw [if_neg hany]
    have hpieces : pieces name false ((allPieces name bs).map (filled r)) =
        (allPieces name bs).map (Option.map chompBlock) := by
      have hnone : filled r none = r := rfl
      rw [hall, List.map_append, pieces_append, pieces_filled hr, List.map_append,
        List.map_singleton, hnone, pieces, if_pos hr]
      rfl
    have hsome : ((allPieces name bs).map (Option.map chompBlock)).any Option.isNone = true := by
      rw [any_isNone_map, hall, List.any_append]
      simp
    rw [allPieces, hpieces]
    exact if_pos hsome

/-! ## Where the scanner stands -/

theorem lastBracketed_concat (bs : List IniBlock) (b : IniBlock) :
    lastBracketed (bs ++ [b]) = if isBracketed b.head then some b else lastBracketed bs := by
  rw [lastBracketed, List.filter_append]
  by_cases h : isBracketed b.head = true
  · simp [h]
  · simp [h, lastBracketed]

theorem foldl_skips (name : Str) (bs : List IniBlock) :
    bs.foldl (skips name) false = (lastBracketed bs).any fun h => isHeader name h.head := by
  induction bs using List.reverseRecOn with
  | nil => rfl
  | append_singleton bs b ih =>
    rw [List.foldl_concat, lastBracketed_concat, skips, ih]
    split
    · rfl
    · rfl

theorem agrees_iff_forall (name : Str) (skip : Bool) (bs : List IniBlock) :
    Agrees name skip bs ↔ ∀ before b after, bs = before ++ b :: after →
      namesSection name b.head = (before ++ [b]).foldl (skips name) skip := by
  induction bs generalizing skip with
  | nil =>
    refine iff_of_true trivial ?_
    intro before b after h
    cases before with
    | nil => cases h
    | cons c before => cases h
  | cons b bs ih =>
    rw [Agrees, ih]
    constructor
    · rintro ⟨hhead, htail⟩ before c after heq
      cases before with
      | nil =>
        obtain ⟨rfl, -⟩ := List.cons.inj heq
        exact hhead
      | cons d before =>
        obtain ⟨rfl, hrest⟩ := List.cons.inj heq
        exact htail before c after hrest
    · intro h
      exact ⟨h [] b bs rfl, fun before c after heq => h (b :: before) c after (by rw [heq]; rfl)⟩

/-! ## The frame -/

theorem map_chompCr_eq_self_iff (ls : List Str) :
    ls.map Str.chompCr = ls ↔ ∀ l ∈ ls, Str.endsWith '\r' l = false := by
  induction ls with
  | nil => simp
  | cons l ls ih => simp [ih, Str.chompCr_eq_self_iff]

theorem map_chompBlock_eq_self_iff (bs : List IniBlock) :
    bs.map chompBlock = bs ↔ ∀ b ∈ bs, ∀ l ∈ b.items, Str.endsWith '\r' l = false := by
  induction bs with
  | nil => simp
  | cons b bs ih => simp [ih, chompBlock_eq_self_iff]

/-- The other sections are the same exactly if they are all kept and lose nothing. -/
theorem others_iff {r : IniBlock} (hr : namesSection name r.head = true) (bs : List IniBlock) :
    (((allPieces name bs).map (filled r)).filter fun b => !namesSection name b.head) =
        (bs.filter fun b => !namesSection name b.head) ↔
      ((kept (pieces name false bs)).filter fun b => !namesSection name b.head) =
          (bs.filter fun b => !namesSection name b.head) ∧
        ∀ b ∈ bs, namesSection name b.head = false → ∀ l ∈ b.items, Str.endsWith '\r' l = false := by
  have hmem : ∀ b, b ∈ (bs.filter fun b => !namesSection name b.head) ↔
      b ∈ bs ∧ namesSection name b.head = false := by
    intro b
    rw [List.mem_filter, Bool.not_eq_true']
  rw [filter_others_filled hr, kept_allPieces]
  constructor
  · intro h
    have hsub := (kept_pieces_sublist name false bs).filter fun b => !namesSection name b.head
    have hlen := congrArg List.length h
    rw [List.length_map] at hlen
    have hkept := hsub.eq_of_length hlen
    rw [hkept, map_chompBlock_eq_self_iff] at h
    exact ⟨hkept, fun b hb hnamed => h b ((hmem b).mpr ⟨hb, hnamed⟩)⟩
  · rintro ⟨hkept, hcr⟩
    rw [hkept, map_chompBlock_eq_self_iff]
    intro b hb
    obtain ⟨hb, hnamed⟩ := (hmem b).mp hb
    exact hcr b hb hnamed

/-- The named section comes out once and as given exactly if none with the name is kept,
the header is there at most once and the replacement loses nothing. -/
theorem once_iff {r r' : IniBlock} (hr' : namesSection name r'.head = true) (bs : List IniBlock) :
    ((((allPieces name bs).map (filled r')).filter fun b => namesSection name b.head).map
        Block.items) = [r.items] ↔
      ((kept (pieces name false bs)).filter fun b => namesSection name b.head) = [] ∧
        bs.countP (fun b => isHeader name b.head) ≤ 1 ∧ r' = r := by
  have hlength := length_filter_named_filled hr' (allPieces name bs)
  rw [kept_allPieces] at hlength
  have hpos := countP_allPieces_pos name bs
  rw [← countP_allPieces_eq_one]
  constructor
  · intro h
    have hone := congrArg List.length h
    rw [List.length_map, List.length_singleton, hlength] at hone
    have hkept : ((kept (pieces name false bs)).filter fun b => namesSection name b.head) = [] :=
      List.eq_nil_of_length_eq_zero (by omega)
    refine ⟨hkept, by omega, ?_⟩
    obtain ⟨b, hb, hitems⟩ := List.map_eq_singleton_iff.mp h
    have hall := filter_allPieces_filled r' hkept
    rw [hb] at hall
    rw [← hall b List.mem_cons_self]
    exact Block.items_injective hitems
  · rintro ⟨hkept, hcount, rfl⟩
    have hall := filter_allPieces_filled r' hkept
    rw [hkept, hcount, List.length_nil, Nat.zero_add] at hlength
    obtain ⟨b, hb⟩ := List.length_eq_one_iff.mp hlength
    rw [hb] at hall ⊢
    rw [hall b List.mem_cons_self]
    rfl

/-- **When only the named section is replaced.** For every text, every name and every
section with that name as its bare header: the other sections and the preamble keep their
lines, the section is there once with the lines given, and doing it again changes nothing,
exactly when the scanner finds the sections as they are written. -/
theorem replaceIniSection_frame_iff (text name replacement : Str)
    (hsection : IsSectionOf name replacement) :
    ReplacesOnly text name replacement ↔ ScannedAsWritten text name replacement := by
  obtain ⟨r, hr, hheader⟩ := hsection
  obtain ⟨r', hr', hheader', hsame⟩ := exists_closed name hr
  rw [hheader] at hheader'
  have hnamed' := namesSection_of_isHeader hheader'
  obtain ⟨hpreamble, hsections⟩ := iniOf_replaceIniSection hr' text name
  have hheaders : Agrees name false (iniOf text).sections ↔
      ∀ before b after, (iniOf text).sections = before ++ b :: after →
        namesSection name b.head =
          (lastBracketed (before ++ [b])).any fun h => isHeader name h.head := by
    simp only [agrees_iff_forall, foldl_skips]
  constructor
  · rintro ⟨hpre, hothers, honce, -⟩
    rw [hpreamble, map_chompCr_eq_self_iff] at hpre
    rw [hsections, others_iff hnamed'] at hothers
    rw [hsections, hr, once_iff hnamed'] at honce
    obtain ⟨hkeep, hcr⟩ := hothers
    obtain ⟨hnone, hcount, hrr⟩ := honce
    exact ⟨hheaders.mp ((agrees_iff name false _).mpr ⟨hkeep, hnone⟩), hcount, hpre, hcr,
      hsame.mp hrr⟩
  · rintro ⟨hscan, hcount, hpre, hcr, hreplacement⟩
    obtain ⟨hkeep, hnone⟩ := (agrees_iff name false _).mp (hheaders.mpr hscan)
    have hpreSame := (map_chompCr_eq_self_iff _).mpr hpre
    refine ⟨hpreamble.trans hpreSame, ?_, ?_, ?_⟩
    · rw [hsections, others_iff hnamed']
      exact ⟨hkeep, hcr⟩
    · rw [hsections, hr, once_iff hnamed']
      exact ⟨hnone, hcount, hsame.mpr hreplacement⟩
    · -- what is kept has no carriage returns to lose
      have hpieces : (allPieces name (iniOf text).sections).map (Option.map chompBlock) =
          allPieces name (iniOf text).sections := by
        refine (List.map_congr_left fun p hp => ?_).trans (List.map_id _)
        cases p with
        | none => rfl
        | some b =>
          have hmem : b ∈ kept (pieces name false (iniOf text).sections) := by
            rw [← kept_allPieces]
            exact List.mem_filterMap.mpr ⟨some b, hp, rfl⟩
          have hnamed : namesSection name b.head = false := by
            cases hb : namesSection name b.head with
            | false => rfl
            | true =>
              have hfilter : b ∈ (kept (pieces name false (iniOf text).sections)).filter
                  fun b => namesSection name b.head := List.mem_filter.mpr ⟨hmem, hb⟩
              rw [hnone] at hfilter
              cases hfilter
          exact congrArg some
            (chompBlock_eq_self_iff.mpr (hcr b (mem_of_mem_allPieces hp) hnamed))
      rw [replaceIniSection_eq (replaceIniSection text name replacement), hpreamble, hsections,
        allPieces_filled hheader', hpreSame, hpieces, replaceIniSection_eq text]

/-! ## What the command writes -/

/-- A text between two characters that are no white space is trimmed already. -/
theorem trim_between {c d : Char} (hc : Str.isWhitespace c = false)
    (hd : Str.isWhitespace d = false) (s : Str) : Str.trim (c :: (s ++ [d])) = c :: (s ++ [d]) := by
  rw [Str.trim, List.dropWhile_cons_of_neg (by simp [hc]), ← List.cons_append]
  exact List.rdropWhile_concat_neg _ _ _ (by simp [hd])

theorem trim_iniHeader (name : Str) : Str.trim (iniHeader name) = iniHeader name :=
  trim_between (by decide) (by decide) name

/-- A line that starts with another character starts no section. -/
theorem not_startsSection {c : Char} (hc : Str.isWhitespace c = false) (hne : c ≠ '[') (s : Str) :
    ¬ StartsSection (c :: s) := by
  intro h
  have hpre : ['['] <+: Str.trim (c :: s) := of_decide_eq_true h
  rw [Str.trim, List.dropWhile_cons_of_neg (by simp [hc])] at hpre
  have hhead := hpre.trans (List.rdropWhile_prefix _ _)
  rw [List.cons_prefix_cons] at hhead
  exact hne hhead.1.symm

/-- The lines of the section that the command puts in. -/
theorem isSectionOf_awsSection {profile accessKey secretKey : Str} {sessionToken : Option Str}
    (hprofile : '\n' ∉ profile) (haccess : '\n' ∉ accessKey) (hsecret : '\n' ∉ secretKey)
    (htoken : ∀ tok, sessionToken = some tok → '\n' ∉ tok) :
    IsSectionOf profile (awsSection profile accessKey secretKey sessionToken) := by
  have hplain : ∀ {k v : Str}, k.head? = some 'a' → ¬ StartsSection (Str.chompCr (k ++ v)) := by
    intro k v hk
    obtain ⟨t, rfl⟩ := List.head?_eq_some_iff.mp hk
    have hstart := @not_startsSection 'a' (by decide) (by decide) (t ++ v)
    unfold StartsSection at hstart ⊢
    rwa [Str.trim_chompCr]
  have hheader : '\n' ∉ iniHeader profile := by simp [iniHeader, hprofile]
  have hkeys : '\n' ∉ "aws_access_key_id = ".toList ++ accessKey ∧
      '\n' ∉ "aws_secret_access_key = ".toList ++ secretKey := by
    simp [haccess, hsecret]
  let tokenLines : List Str :=
    (sessionToken.map fun tok => Str.chompCr ("aws_session_token = ".toList ++ tok)).toList
  have htokenLines : Str.lines ((sessionToken.map fun tok =>
      "aws_session_token = ".toList ++ tok ++ ['\n']).getD []) = tokenLines := by
    cases hs : sessionToken with
    | none => simp [tokenLines, hs]
    | some tok =>
      have htok : '\n' ∉ "aws_session_token = ".toList ++ tok := by simp [htoken tok hs]
      simp only [tokenLines, hs, Option.map_some, Option.getD_some, Option.toList_some]
      exact Str.lines_line htok []
  have hlines : Str.lines (awsSection profile accessKey secretKey sessionToken) =
      Str.chompCr (iniHeader profile) :: Str.chompCr ("aws_access_key_id = ".toList ++ accessKey) ::
        Str.chompCr ("aws_secret_access_key = ".toList ++ secretKey) :: tokenLines := by
    rw [← htokenLines, ← Str.lines_line hkeys.2, ← Str.lines_line hkeys.1, ← Str.lines_line hheader]
    simp [awsSection]
  refine ⟨⟨Str.chompCr (iniHeader profile), _, ?_, ?_⟩, hlines, ?_⟩
  · unfold StartsSection
    rw [Str.trim_chompCr, trim_iniHeader]
    simp [iniHeader, Str.startsWith]
  · intro l hl
    rcases List.mem_cons.mp hl with rfl | hl
    · exact hplain rfl
    · rcases List.mem_cons.mp hl with rfl | hl
      · exact hplain rfl
      · simp only [tokenLines, Option.mem_toList, Option.map_eq_some_iff] at hl
        obtain ⟨tok, -, rfl⟩ := hl
        exact hplain rfl
  · rw [isHeader_chompCr, isHeader, trim_iniHeader]
    exact beq_self_eq_true _

namespace IniSample

/-- A profile, the default one and a comment behind another header. -/
def commented : Str := "[default]\na = 1\n[other] # mine\nb = 2\n".toList

def plain : Str := "# keys\r\n[other]\r\nb = 2\r\n\r\n[default]\r\na = 1".toList

def renewed : Str := "[default]\nc = 3\n".toList

theorem isSectionOf_renewed : IsSectionOf "default".toList renewed :=
  ⟨⟨"[default]".toList, ["c = 3".toList], by decide +kernel, by decide +kernel⟩, by decide +kernel,
    by decide +kernel⟩

/-- Each header of the text is read as it is written. -/
theorem replaceIniSection_plain : ReplacesOnly plain "default".toList renewed := by
  refine (replaceIniSection_frame_iff plain "default".toList renewed isSectionOf_renewed).mpr
    ⟨?_, by decide +kernel, by decide +kernel, by decide +kernel, by decide +kernel⟩
  intro before b after h
  have hagrees : Agrees "default".toList false (iniOf plain).sections :=
    ⟨by decide +kernel, by decide +kernel, trivial⟩
  rw [← foldl_skips]
  exact (agrees_iff_forall _ _ _).mp hagrees before b after h

/-- The section behind the comment is gone. -/
theorem replaceIniSection_commented :
    replaceIniSection commented "default".toList renewed = renewed ∧
      ¬ ReplacesOnly commented "default".toList renewed := by
  refine ⟨by decide +kernel, fun h => ?_⟩
  have hothers := congrArg (List.map Block.items) h.others
  exact absurd hothers (by decide +kernel)

/-- A header with a comment is not found, and the section is there twice. -/
example : replaceIniSection "[default] # mine\na = 1\n".toList "default".toList renewed =
    "[default] # mine\na = 1\n[default]\nc = 3\n".toList := by decide +kernel

end IniSample

end Rs5cmd
