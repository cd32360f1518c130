import KineticText.Markup.Token
import KineticText.Proofs.Markup.Brackets

/-! Brackets found by scanning.  A scan goes through a text from the left and remembers the quote
that is open, while the marks of a text come from its end and know the bracket for each quote that
may be open.  Main statement: the mark before any place of a text is what a scan from that place
finds, so the tokens are those of a reader that scans anew at every `<`. -/

namespace KineticText.Markup

/-- The quote that is open after a character: outside quotes the character may open one, and its own
quote closes it. -/
def quoteAfter (quote : Option Char) (c : Char) : Option Char :=
  match quote with
  | some q => if c = q then none else some q
  | none => if c = '"' ∨ c = '\'' then some c else none

/-- The place of the first `>` outside quotes, when `quote` is open before the first character,
which has the given place. -/
def scanFrom (quote : Option Char) (place : Nat) : List Char → Option Nat
  | [] => none
  | c :: cs =>
    if quote = none ∧ c = '>' then some place else scanFrom (quoteAfter quote c) (place + 1) cs

/-- The place of the first `>` outside quotes from a place of a text on, where no quote is open. -/
def scan (cs : List Char) (start : Nat) : Option Nat := scanFrom none start (cs.drop start)

/-- The place of the bracket that the marks of a text give for a tag whose body begins at `start`.
The mark of a place stands before it, so the text is put behind a bracket. -/
def markedBracket (cs : List Char) (start : Nat) : Option Nat :=
  ((withClosing ('<' :: cs))[start]?.bind Prod.snd).map (start + ·)

/-! ### Reading without marks -/

/-- The piece from a `<` to the bracket after `n` more characters, and the rest. -/
def enclosed (n : Nat) (rest : List Char) : Piece × List Char :=
  let body := rest.take n
  let source := String.ofList ('<' :: (body ++ ['>']))
  match Tag.parse? body source with
  | some tag => (.tag tag, rest.drop (n + 1))
  | none => (.literal source, rest.drop (n + 1))

/-- Reads the piece that starts with `c`, scanning what follows a `<` for its bracket, and gives the
rest. -/
def scannedPiece (c : Char) (rest : List Char) : Piece × List Char :=
  match c, rest with
  | '\\', '<' :: rest => (.char '<', rest)
  | '\\', '\\' :: rest => (.char '\\', rest)
  | '&', 'l' :: 't' :: ';' :: rest => (.char '<', rest)
  | '&', 'g' :: 't' :: ';' :: rest => (.char '>', rest)
  | '&', 'a' :: 'm' :: 'p' :: ';' :: rest => (.char '&', rest)
  | '<', rest =>
    match scan rest 0 with
    | some n => enclosed n rest
    | none => (.char '<', rest)
  | c, rest => (.char c, rest)

theorem length_scannedPiece_le (c : Char) (rest : List Char) :
    (scannedPiece c rest).2.length ≤ rest.length := by
  unfold scannedPiece enclosed
  grind

/-- Reads every piece of a source, scanning at every `<`. -/
def Reading.scanAll (r : Reading) (source : List Char) : Reading :=
  match source with
  | [] => r
  | c :: rest => (r.add (scannedPiece c rest).1).scanAll (scannedPiece c rest).2
termination_by source.length
decreasing_by
  have := length_scannedPiece_le c rest
  simp only [List.length_cons]
  omega

/-- Cuts a source text into tokens, scanning at every `<`. -/
def tokenizeByScanning (source : String) : List Token :=
  (Reading.scanAll {} source.toList).flush.toList

/-! ### Marks and scans -/

/-- How many characters stand before the next `>` outside quotes, when `quote` is open. -/
def Closing.under (closing : Closing) : Option Char → Option Nat
  | none => closing.outside
  | some q => closing.inside q

/-- Only quotes are ever open. -/
def IsOpen (quote : Option Char) : Prop := ∀ q ∈ quote, isQuote q = true

theorem isOpen_none : IsOpen none := fun _ h => by cases h

theorem IsOpen.quoteAfter {quote : Option Char} (h : IsOpen quote) (c : Char) :
    IsOpen (quoteAfter quote c) := by
  intro q hq
  unfold Markup.quoteAfter at hq
  split at hq
  · split at hq
    · cases hq
    · exact h q hq
  · split at hq
    · rename_i hc
      cases hq
      exact isQuote_iff.mpr hc
    · cases hq

/-- One character earlier the bracket is one character farther away, unless it is the character. -/
theorem Closing.under_before (next : Closing) (c : Char) {quote : Option Char} (h : IsOpen quote) :
    (next.before c).under quote =
      if quote = none ∧ c = '>' then some 0
      else (next.under (Markup.quoteAfter quote c)).map (· + 1) := by
  cases quote with
  | some q =>
    by_cases hc : c = q
    · subst hc
      rcases isQuote_iff.mp (h c rfl) with rfl | rfl <;>
        simp [under, inside, before, Markup.quoteAfter]
    · rcases isQuote_iff.mp (h q rfl) with rfl | rfl <;>
        simp [under, inside, before, Markup.quoteAfter, hc]
  | none =>
    by_cases hc : c = '"' ∨ c = '\''
    · rcases hc with rfl | rfl <;> simp [under, inside, before, Markup.quoteAfter]
    · rw [not_or] at hc
      by_cases hend : c = '>' <;> simp [under, before, Markup.quoteAfter, hc, hend]

/-- Whatever quote is open, a scan finds what the brackets seen from its first character say. -/
theorem scanFrom_eq (cs : List Char) {quote : Option Char} (h : IsOpen quote) (place : Nat) :
    scanFrom quote place cs = ((Closing.of cs).under quote).map (place + ·) := by
  -- The quote that is open changes along the text, so all states go through the induction.
  induction cs generalizing quote place with
  | nil =>
    have hnone : (Closing.of []).under quote = none := by
      cases quote with
      | none => rfl
      | some q => rcases isQuote_iff.mp (h q rfl) with rfl | rfl <;> rfl
    rw [hnone]
    rfl
  | cons c cs ih =>
    rw [scanFrom, Closing.of_cons, Closing.under_before _ _ h, ih (h.quoteAfter c)]
    split
    · rfl
    · rw [Option.map_map]
      congr 1
      funext n
      simp only [Function.comp_apply]
      omega

theorem getElem?_withClosing (cs : List Char) (place : Nat) : (withClosing cs)[place]? =
    (cs[place]?).map fun c => (c, (Closing.of (cs.drop (place + 1))).outside) := by
  induction cs generalizing place with
  | nil => rfl
  | cons c cs ih =>
    rw [withClosing_cons]
    cases place with
    | zero => rfl
    | succ place => exact ih place

/-- The marks give what a scan finds, from every place. -/
theorem markedBracket_eq_scan (cs : List Char) (start : Nat) :
    markedBracket cs start = scan cs start := by
  rw [markedBracket, scan, scanFrom_eq _ isOpen_none, getElem?_withClosing]
  by_cases h : start < ('<' :: cs).length
  · rw [List.getElem?_eq_getElem h]
    rfl
  · -- Past the end there is neither a mark nor a character to scan.
    have hlength : cs.length ≤ start := by
      rw [List.length_cons] at h
      omega
    rw [List.getElem?_eq_none (Nat.le_of_not_lt h), List.drop_eq_nil_of_le hlength]
    rfl

/-- What a scan finds is a bracket of the text. -/
theorem getElem?_of_scanFrom {cs : List Char} {quote : Option Char} {place found : Nat}
    (h : scanFrom quote place cs = some found) :
    ∃ n, found = place + n ∧ cs[n]? = some '>' := by
  induction cs generalizing quote place with
  | nil => cases h
  | cons c cs ih =>
    rw [scanFrom] at h
    split at h
    · rename_i hc
      cases h
      exact ⟨0, rfl, by rw [hc.2]; rfl⟩
    · obtain ⟨n, rfl, hn⟩ := ih h
      exact ⟨n + 1, by omega, hn⟩

/-! ### Reading with marks -/

theorem drop_withClosing (n : Nat) (cs : List Char) :
    (withClosing cs).drop n = withClosing (cs.drop n) := by
  induction cs generalizing n with
  | nil => simp [withClosing]
  | cons c cs ih =>
    cases n with
    | zero => rfl
    | succ n => rw [withClosing_cons, List.drop_succ_cons, List.drop_succ_cons, ih]

theorem bracketed_withClosing (n : Nat) (rest : List Char) :
    bracketed n (withClosing rest) = ((enclosed n rest).1, withClosing (enclosed n rest).2) := by
  unfold bracketed enclosed
  rw [drop_withClosing, List.map_take, withClosing_map_fst]
  simp only
  cases Tag.parse? (rest.take n) (String.ofList ('<' :: (rest.take n ++ ['>']))) <;> rfl

/-- A marked text has the pieces of the text. -/
theorem piece_withClosing (c : Char) (rest : List Char) :
    piece c (Closing.of rest).outside (withClosing rest) =
      ((scannedPiece c rest).1, withClosing (scannedPiece c rest).2) := by
  have hscan : scan rest 0 = (Closing.of rest).outside := by
    rw [scan, scanFrom_eq _ isOpen_none, List.drop_zero]
    simp [Closing.under]
  unfold scannedPiece
  split
  case h_1 | h_2 | h_3 | h_4 | h_5 => simp only [withClosing_cons, piece]
  case h_6 =>
    rw [hscan]
    cases (Closing.of rest).outside with
    | none => simp [piece]
    | some n => exact bracketed_withClosing n rest
  case h_7 hless h1 h2 h3 h4 h5 =>
    -- The characters are those of the text, so no longer piece begins here either.
    have hplain : ∀ {marked : List Marked}, withClosing rest = marked →
        rest = marked.map Prod.fst := by
      rintro _ rfl
      exact (withClosing_map_fst rest).symm
    rw [piece]
    · exact fun _ hc _ => hless hc
    · exact fun _ _ hc hmarked => h1 _ hc (hplain hmarked)
    · exact fun _ _ hc hmarked => h2 _ hc (hplain hmarked)
    · exact fun _ _ _ _ hc hmarked => h3 _ hc (hplain hmarked)
    · exact fun _ _ _ _ hc hmarked => h4 _ hc (hplain hmarked)
    · exact fun _ _ _ _ _ hc hmarked => h5 _ hc (hplain hmarked)

theorem addAll_withClosing (r : Reading) (cs : List Char) :
    r.addAll (withClosing cs) = r.scanAll cs := by
  fun_induction Reading.scanAll r cs with
  | case1 r => rw [withClosing, List.foldr_nil, Reading.addAll]
  | case2 r c rest ih => rw [withClosing_cons, Reading.addAll, piece_withClosing, ih]

theorem tokenize_eq_tokenizeByScanning (source : String) :
    tokenize source = tokenizeByScanning source := by
  rw [tokenize, addAll_withClosing, tokenizeByScanning]

/-- The marks of a text give the place that a scan finds, wherever it starts, and that place is in
the text.  So cutting a source by its marks is cutting it with a scan at every `<`. -/
theorem marks_agree_with_scan :
    (∀ (cs : List Char) (start : Nat), markedBracket cs start = scan cs start ∧
      ∀ place ∈ markedBracket cs start, start ≤ place ∧ cs[place]? = some '>') ∧
    ∀ source : String, tokenize source = tokenizeByScanning source := by
  refine ⟨fun cs start => ⟨markedBracket_eq_scan cs start, fun place hplace => ?_⟩,
    tokenize_eq_tokenizeByScanning⟩
  rw [markedBracket_eq_scan, Option.mem_def] at hplace
  obtain ⟨n, rfl, hn⟩ := getElem?_of_scanFrom hplace
  rw [List.getElem?_drop] at hn
  exact ⟨Nat.le_add_right start n, hn⟩

end KineticText.Markup
