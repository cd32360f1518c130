import KineticText.Proofs.Markup.Scanning
import KineticText.Proofs.Markup.Spending
import KineticText.Proofs.Markup.TagGrammar
import Mathlib.Data.List.Chain

/-! Pieces of a source.  A source is read once from the left, so each of its characters belongs to
one token, and what a token stands for can be read off its own piece.  What follows a piece has no
say in it: a bracket that closes in the source closes in the piece, and an escape that is cut off
there is none.  Main statement: the pieces of the tokens make up the source, a tag is its piece, and
a text is its piece read once as literal text. -/

namespace KineticText.Markup

/-! ### Literal text -/

/-- Characters, and what they are as literal text when they are read once from the left.  No tag is
literal text. -/
inductive Unescapes : List Char → List Char → Prop
  | nil : Unescapes [] []
  | escape {c : Char} {cs text : List Char} (escaped : c ∈ ['<', '\\']) (rest : Unescapes cs text) :
      Unescapes ('\\' :: c :: cs) (c :: text)
  | entity {spelling cs text : List Char} {c : Char} (known : (spelling, c) ∈ entities)
      (rest : Unescapes cs text) : Unescapes (spelling ++ cs) (c :: text)
  | malformed {body cs text : List Char} (closes : scan (body ++ '>' :: cs) 0 = some body.length)
      (noTag : ∀ kind name attributes, ¬ TagForm body kind name attributes)
      (rest : Unescapes cs text) :
      Unescapes ('<' :: (body ++ '>' :: cs)) ('<' :: (body ++ '>' :: text))
  | unclosed {cs text : List Char} (noBracket : scan cs 0 = none) (rest : Unescapes cs text) :
      Unescapes ('<' :: cs) ('<' :: text)
  | itself {c : Char} {cs text : List Char} (noBracket : c ≠ '<')
      (noEscape : c = '\\' → ∀ d ∈ cs.head?, d ∉ ['<', '\\'])
      (noEntity : ∀ e ∈ entities, ¬ e.1 <+: c :: cs) (rest : Unescapes cs text) :
      Unescapes (c :: cs) (c :: text)

/-- The characters that a token is read from.  Those of a text are read as the text and as nothing
else, and those of a tag are the tag as written, up to the first `>` outside quotes. -/
def Token.IsReadFrom : Token → List Char → Prop
  | .text s, piece => ∀ text, Unescapes piece text ↔ text = s.toList
  | .tag t, piece => piece = t.source.toList ∧ ∃ body, piece = '<' :: (body ++ ['>']) ∧
      scan (body ++ ['>']) 0 = some body.length ∧ TagForm body t.kind t.name t.attributes

/-- Whether a token is a text. -/
def Token.IsText : Token → Prop
  | .text _ => True
  | .tag _ => False

/-- Texts are not empty, and a tag stands between any two of them. -/
structure Separated (tokens : List Token) : Prop where
  ne_empty : ∀ s, .text s ∈ tokens → s ≠ ""
  apart : tokens.IsChain fun first second => ¬ (first.IsText ∧ second.IsText)

/-! ### Scans of a part -/

theorem scanFrom_of_append_eq_none {cs after : List Char} {quote : Option Char} {place : Nat}
    (h : scanFrom quote place (cs ++ after) = none) : scanFrom quote place cs = none := by
  induction cs generalizing quote place with
  | nil => rfl
  | cons c cs ih =>
    rw [List.cons_append, scanFrom] at h
    rw [scanFrom]
    split at h
    · cases h
    · rename_i hc
      rw [if_neg hc]
      exact ih h

/-- Where a scan ends does not depend on what follows. -/
theorem scanFrom_closed {body after : List Char} {quote : Option Char} {place : Nat}
    (h : scanFrom quote place (body ++ '>' :: after) = some (place + body.length))
    (after' : List Char) :
    scanFrom quote place (body ++ '>' :: after') = some (place + body.length) := by
  induction body generalizing quote place with
  | nil =>
    rw [List.nil_append, scanFrom] at h ⊢
    split at h
    · rename_i hc
      rw [if_pos hc]
      exact h
    · obtain ⟨n, hn, -⟩ := getElem?_of_scanFrom h
      simp only [List.length_nil] at hn
      omega
  | cons c body ih =>
    rw [List.cons_append, scanFrom] at h ⊢
    split at h
    · simp only [Option.some.injEq, List.length_cons] at h
      omega
    · rename_i hc
      have hplace : place + (c :: body).length = place + 1 + body.length := by
        rw [List.length_cons]
        omega
      rw [if_neg hc]
      rw [hplace] at h ⊢
      exact ih h

theorem scan_of_append_eq_none {cs after : List Char} (h : scan (cs ++ after) 0 = none) :
    scan cs 0 = none :=
  scanFrom_of_append_eq_none h

theorem scan_closed {body after : List Char}
    (h : scan (body ++ '>' :: after) 0 = some body.length) (after' : List Char) :
    scan (body ++ '>' :: after') 0 = some body.length := by
  rw [scan, List.drop_zero, ← Nat.zero_add body.length] at h ⊢
  exact scanFrom_closed h after'

/-- The body that a scan finds, with its bracket and what follows. -/
theorem exists_body_of_scan {rest : List Char} {n : Nat} (h : scan rest 0 = some n) :
    rest = rest.take n ++ '>' :: rest.drop (n + 1) ∧ (rest.take n).length = n := by
  rw [scan, List.drop_zero] at h
  obtain ⟨m, hm, hbracket⟩ := getElem?_of_scanFrom h
  obtain rfl : n = m := by omega
  obtain ⟨hlt, hget⟩ := List.getElem?_eq_some_iff.mp hbracket
  refine ⟨?_, List.length_take_of_le (Nat.le_of_lt hlt)⟩
  rw [← hget, ← List.drop_eq_getElem_cons hlt, List.take_append_drop]

/-! ### One step of reading -/

/-- What a piece adds to a text. -/
def Piece.literal? : Piece → Option (List Char)
  | .char c => some [c]
  | .literal source => some source.toList
  | .tag _ => none

theorem noTag_of_parse?_eq_none {body : List Char} {source : String}
    (h : Tag.parse? body source = none) (kind : Tag.Kind) (name : String)
    (attributes : List (String × String)) : ¬ TagForm body kind name attributes := by
  intro hform
  rw [hform.parse? source] at h
  cases h

theorem parse?_eq_none_of_noTag {body : List Char} {source : String}
    (h : ∀ kind name attributes, ¬ TagForm body kind name attributes) :
    Tag.parse? body source = none := by
  cases hparse : Tag.parse? body source with
  | none => rfl
  | some tag => exact absurd (tagForm_of_parse? hparse) (h _ _ _)

/-- A character that begins nothing longer is a piece. -/
theorem scannedPiece_itself {c : Char} {rest : List Char} (noBracket : c ≠ '<')
    (noEscape : c = '\\' → ∀ d ∈ rest.head?, d ∉ ['<', '\\'])
    (noEntity : ∀ e ∈ entities, ¬ e.1 <+: c :: rest) : scannedPiece c rest = (.char c, rest) := by
  unfold scannedPiece
  split
  case h_1 | h_2 => exact absurd (by simp) (noEscape rfl _ rfl)
  case h_3 rest =>
    exact absurd ⟨rest, rfl⟩ (noEntity _ less_mem_entities)
  case h_4 rest =>
    exact absurd ⟨rest, rfl⟩ (noEntity _ greater_mem_entities)
  case h_5 rest =>
    exact absurd ⟨rest, rfl⟩ (noEntity _ ampersand_mem_entities)
  case h_6 => exact absurd rfl noBracket
  case h_7 => rfl

/-- Literal text goes on after the piece that it begins with. -/
theorem Unescapes.exists_after {c : Char} {rest text : List Char} (h : Unescapes (c :: rest) text) :
    ∃ front after, (scannedPiece c rest).1.literal? = some front ∧
      Unescapes (scannedPiece c rest).2 after ∧ text = front ++ after := by
  generalize hsource : c :: rest = source at h
  cases h with
  | nil => cases hsource
  | escape escaped after =>
    cases hsource
    simp only [List.mem_cons, List.not_mem_nil, or_false] at escaped
    rcases escaped with rfl | rfl
    · exact ⟨['<'], _, rfl, after, rfl⟩
    · exact ⟨['\\'], _, rfl, after, rfl⟩
  | entity known after =>
    rcases mem_entities_iff.mp known with heq | heq | heq
    · cases heq
      cases hsource
      exact ⟨['<'], _, rfl, after, rfl⟩
    · cases heq
      cases hsource
      exact ⟨['>'], _, rfl, after, rfl⟩
    · cases heq
      cases hsource
      exact ⟨['&'], _, rfl, after, rfl⟩
  | @malformed body cs text closes noTag after =>
    cases hsource
    have hpiece : scannedPiece '<' (body ++ '>' :: cs) =
        (.literal (String.ofList ('<' :: (body ++ ['>']))), cs) := by
      unfold scannedPiece
      simp only [closes, enclosed, List.take_left, parse?_eq_none_of_noTag noTag]
      rw [← List.drop_drop, List.drop_left]
      rfl
    rw [hpiece]
    exact ⟨_, _, rfl, after, by simp⟩
  | unclosed noBracket after =>
    cases hsource
    have hpiece : scannedPiece '<' rest = (.char '<', rest) := by
      unfold scannedPiece
      simp only [noBracket]
    rw [hpiece]
    exact ⟨['<'], _, rfl, after, rfl⟩
  | itself noBracket noEscape noEntity after =>
    cases hsource
    rw [scannedPiece_itself noBracket noEscape noEntity]
    exact ⟨[c], _, rfl, after, rfl⟩

/-- Characters are literal text in one way at most. -/
theorem Unescapes.unique {cs text text' : List Char} (h : Unescapes cs text)
    (h' : Unescapes cs text') : text = text' := by
  match cs with
  | [] =>
    have hnil : ∀ {text : List Char}, Unescapes [] text → text = [] := by
      intro text h
      generalize hsource : [] = source at h
      cases h with
      | nil => rfl
      | entity known after =>
        rcases mem_entities_iff.mp known with heq | heq | heq <;> cases heq <;> cases hsource
      | escape | malformed | unclosed | itself => cases hsource
    rw [hnil h, hnil h']
  | c :: rest =>
    -- Both begin with what the first piece stands for, and go on after that piece.
    obtain ⟨front, after, hfront, hafter, rfl⟩ := h.exists_after
    obtain ⟨front', after', hfront', hafter', rfl⟩ := h'.exists_after
    rw [hfront] at hfront'
    cases hfront'
    have hlength := length_scannedPiece_le c rest
    rw [hafter.unique hafter']
termination_by cs.length
decreasing_by
  simp only [List.length_cons]
  omega

/-- A piece that is no tag, put before literal text, is literal text. -/
theorem exists_unescapes {c : Char} {rest front piece after text : List Char} {first : Piece}
    (hstep : scannedPiece c rest = (first, piece ++ after)) (hfront : first.literal? = some front)
    (h : Unescapes piece text) :
    ∃ longer, c :: rest = longer ++ after ∧ Unescapes longer (front ++ text) := by
  -- What is known of the rest holds of the part of it that is literal text too.
  unfold scannedPiece at hstep
  split at hstep
  case h_1 | h_2 =>
    cases hstep
    cases hfront
    exact ⟨_, rfl, .escape (by simp) h⟩
  case h_3 =>
    cases hstep
    cases hfront
    exact ⟨_, rfl, .entity less_mem_entities h⟩
  case h_4 =>
    cases hstep
    cases hfront
    exact ⟨_, rfl, .entity greater_mem_entities h⟩
  case h_5 =>
    cases hstep
    cases hfront
    exact ⟨_, rfl, .entity ampersand_mem_entities h⟩
  case h_6 =>
    split at hstep
    · rename_i n hscan
      obtain ⟨hrest, hlength⟩ := exists_body_of_scan hscan
      unfold enclosed at hstep
      simp only at hstep
      split at hstep
      · obtain ⟨rfl, -⟩ := Prod.mk.inj hstep
        cases hfront
      · rename_i hparse
        obtain ⟨rfl, hafter⟩ := Prod.mk.inj hstep
        cases hfront
        rw [hafter] at hrest
        generalize rest.take n = body at *
        rw [hrest, ← hlength] at hscan
        refine ⟨'<' :: (body ++ '>' :: piece), by rw [hrest]; simp, ?_⟩
        have hliteral := Unescapes.malformed (scan_closed hscan piece)
          (noTag_of_parse?_eq_none hparse) h
        simpa using hliteral
    · rename_i hscan
      cases hstep
      cases hfront
      exact ⟨_, rfl, .unclosed (scan_of_append_eq_none hscan) h⟩
  case h_7 =>
    rename_i hbracket hless hbackslash hlt hgt hamp
    cases hstep
    cases hfront
    refine ⟨c :: piece, rfl, .itself hbracket (fun hc d hd hmem => ?_) (fun e he hbegins => ?_) h⟩
    · obtain ⟨piece, rfl⟩ := List.head?_eq_some_iff.mp hd
      simp only [List.mem_cons, List.not_mem_nil, or_false] at hmem
      rcases hmem with rfl | rfl
      · exact hless _ hc rfl
      · exact hbackslash _ hc rfl
    · obtain ⟨tail, htail⟩ := hbegins.trans (List.prefix_append (c :: piece) after)
      rcases mem_entities_iff.mp he with rfl | rfl | rfl <;>
        obtain ⟨rfl, hrest⟩ := List.cons.inj htail
      · exact hlt _ rfl hrest.symm
      · exact hgt _ rfl hrest.symm
      · exact hamp _ rfl hrest.symm

/-- What is read as a tag is written from a `<` to the first `>` outside quotes. -/
theorem isReadFrom_of_scannedPiece {c : Char} {rest after : List Char} {tag : Tag}
    (hstep : scannedPiece c rest = (.tag tag, after)) :
    c :: rest = tag.source.toList ++ after ∧ (Token.tag tag).IsReadFrom tag.source.toList := by
  unfold scannedPiece at hstep
  split at hstep
  case h_6 =>
    split at hstep
    · rename_i n hscan
      obtain ⟨hrest, hlength⟩ := exists_body_of_scan hscan
      unfold enclosed at hstep
      simp only at hstep
      split at hstep
      · rename_i hparse
        obtain ⟨heq, rfl⟩ := Prod.mk.inj hstep
        cases heq
        generalize rest.take n = body at *
        have hsource : tag.source.toList = '<' :: (body ++ ['>']) := by
          rw [(parse?_eq_some hparse).1, String.toList_ofList]
        rw [hrest, ← hlength] at hscan
        refine ⟨?_, rfl, body, hsource, scan_closed hscan [], tagForm_of_parse? hparse⟩
        rw [hsource, List.cons_append, List.append_assoc, List.singleton_append, ← hrest]
      · cases hstep
    · cases hstep
  all_goals cases hstep

/-! ### The pieces of a source -/

/-- The token of a text, if there is text. -/
def textToken (text : List Char) : List Token :=
  if text = [] then [] else [.text (String.ofList text)]

theorem toList_flush (r : Reading) :
    r.flush.toList = r.tokens.toList ++ textToken r.text.toList := by
  unfold Reading.flush textToken
  by_cases h : r.text = ""
  · simp [h]
  · have hlist : r.text.toList ≠ [] := by simpa using h
    simp [h, hlist]

/-- Reading a piece that is no tag adds to the text. -/
theorem add_of_literal? {first : Piece} {front : List Char} (h : first.literal? = some front)
    (r : Reading) :
    (r.add first).tokens = r.tokens ∧ (r.add first).text.toList = r.text.toList ++ front := by
  cases first with
  | char c =>
    cases h
    exact ⟨rfl, r.text.toList_push c⟩
  | literal source =>
    cases h
    exact ⟨rfl, String.toList_append⟩
  | tag tag => cases h

/-- Only what is empty is read as no text. -/
theorem Unescapes.eq_nil {piece : List Char} (h : Unescapes piece []) : piece = [] := by
  generalize htext : [] = text at h
  cases h with
  | nil => rfl
  | escape | entity | malformed | unclosed | itself => cases htext

/-- Literal text before tokens that begin with a tag is one more token, unless there is none. -/
theorem exists_pieces_text {piece text : List Char} {pieces : List (List Char)}
    {tokens : List Token} (htext : Unescapes piece text)
    (hread : List.Forall₂ Token.IsReadFrom tokens pieces) (hseparated : Separated tokens)
    (hfirst : ∀ first ∈ tokens.head?, ¬ first.IsText) :
    ∃ pieces', piece ++ pieces.flatten = pieces'.flatten ∧
      List.Forall₂ Token.IsReadFrom (textToken text ++ tokens) pieces' ∧
      Separated (textToken text ++ tokens) := by
  unfold textToken
  split
  · rename_i hnil
    subst hnil
    rw [htext.eq_nil]
    exact ⟨pieces, rfl, hread, hseparated⟩
  · rename_i hne
    have hown : (Token.text (String.ofList text)).IsReadFrom piece := by
      intro text'
      rw [String.toList_ofList]
      exact ⟨fun h => h.unique htext, fun h => h ▸ htext⟩
    refine ⟨piece :: pieces, rfl, .cons hown hread, ⟨fun s hs => ?_, ?_⟩⟩
    · rcases List.mem_cons.mp hs with hs | hs
      · cases hs
        simpa using hne
      · exact hseparated.ne_empty s hs
    · exact List.isChain_cons.mpr
        ⟨fun first hmem hboth => hfirst first hmem hboth.2, hseparated.apart⟩

/-- A source begins with literal text, perhaps none, and goes on with tokens of which the first, if
there is one, is a tag.  Whatever has been read before, these tokens follow the text. -/
theorem exists_pieces_scanAll (source : List Char) : ∃ piece text pieces tokens,
    source = piece ++ pieces.flatten ∧ Unescapes piece text ∧
      List.Forall₂ Token.IsReadFrom tokens pieces ∧ Separated tokens ∧
      (∀ first ∈ tokens.head?, ¬ first.IsText) ∧
      ∀ r : Reading, (r.scanAll source).flush.toList =
        r.tokens.toList ++ textToken (r.text.toList ++ text) ++ tokens := by
  match source with
  | [] =>
    refine ⟨[], [], [], [], rfl, .nil, .nil, ⟨by simp, by simp⟩, by simp, fun r => ?_⟩
    rw [Reading.scanAll, toList_flush, List.append_nil, List.append_nil]
  | c :: rest =>
    have hlength := length_scannedPiece_le c rest
    -- The induction is on what is left after the first piece, for any reading so far: a piece that
    -- is no tag goes before the text that follows, and a tag ends the text before it.
    obtain ⟨piece, text, pieces, tokens, hrest, htext, hread, hseparated, hfirst, hscan⟩ :=
      exists_pieces_scanAll (scannedPiece c rest).2
    have hstep : scannedPiece c rest = ((scannedPiece c rest).1, piece ++ pieces.flatten) := by
      rw [← hrest]
    cases hpiece : (scannedPiece c rest).1 with
    | char | literal =>
      rw [hpiece] at hstep
      obtain ⟨longer, hsource, hlonger⟩ := exists_unescapes hstep rfl htext
      refine ⟨longer, _, pieces, tokens, hsource, hlonger, hread, hseparated, hfirst, fun r => ?_⟩
      have hliteral := congrArg Piece.literal? hpiece
      obtain ⟨htokens, hadded⟩ := add_of_literal? hliteral r
      rw [Reading.scanAll, hscan, htokens, hadded, List.append_assoc r.text.toList]
    | tag tag =>
      rw [hpiece] at hstep
      obtain ⟨hsource, htag⟩ := isReadFrom_of_scannedPiece hstep
      obtain ⟨pieces', hflatten, hread', hseparated'⟩ :=
        exists_pieces_text htext hread hseparated hfirst
      refine ⟨[], [], tag.source.toList :: pieces', .tag tag :: (textToken text ++ tokens), ?_,
        .nil, .cons htag hread', ⟨fun s hs => ?_, ?_⟩, by simp [Token.IsText], fun r => ?_⟩
      · rw [hsource, hflatten]
        rfl
      · exact hseparated'.ne_empty s (List.mem_of_ne_of_mem (by simp) hs)
      · exact List.isChain_cons.mpr ⟨fun _ _ hboth => hboth.1, hseparated'.apart⟩
      · rw [Reading.scanAll, hpiece, hscan, Reading.add, List.append_nil]
        simp [toList_flush]
termination_by source.length
decreasing_by
  simp only [List.length_cons]
  omega

/-- Nothing of a source is lost.  It is the pieces of its tokens one after the other: a tag is its
piece, which begins with `<` and ends with the first `>` outside quotes, and a text is its piece
read once as literal text.  No text is empty or stands beside another. -/
theorem exists_pieces_tokenize (source : String) : ∃ pieces,
    source.toList = pieces.flatten ∧
      List.Forall₂ Token.IsReadFrom (tokenize source) pieces ∧ Separated (tokenize source) := by
  obtain ⟨piece, text, pieces, tokens, hsource, htext, hread, hseparated, hfirst, hscan⟩ :=
    exists_pieces_scanAll source.toList
  rw [tokenize_eq_tokenizeByScanning, tokenizeByScanning, hscan, hsource]
  exact exists_pieces_text htext hread hseparated hfirst

end KineticText.Markup
