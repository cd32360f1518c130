import KineticText.Proofs.Markup.Brackets
import KineticText.Proofs.Markup.Limits

/-! What tokens cost.  A source pays for its tokens: a literal character costs one character, a tag
that opens an element at least three, and a closing tag what is written.  Every mark points to a
bracket within the source, so no character is paid twice. -/

namespace KineticText.Markup

/-! ### Marks -/

/-- Every marked bracket stands within the characters that follow. -/
def MarksWithin (source : List Marked) : Prop :=
  ∀ c n rest, (c, some n) :: rest <:+ source → n < rest.length

theorem MarksWithin.of_suffix {source source' : List Marked} (h : MarksWithin source)
    (hsuffix : source' <:+ source) : MarksWithin source' :=
  fun c n rest hrest => h c n rest (hrest.trans hsuffix)

/-- A bracket, if there is one, stands within the first `length` characters. -/
def PointsWithin (bracket : Option Nat) (length : Nat) : Prop := ∀ n ∈ bracket, n < length

theorem PointsWithin.succ {bracket : Option Nat} {length : Nat} (h : PointsWithin bracket length) :
    PointsWithin (bracket.map (· + 1)) (length + 1) := by
  intro n hn
  obtain ⟨m, hm, rfl⟩ := Option.map_eq_some_iff.mp hn
  exact Nat.succ_lt_succ (h m hm)

theorem Closing.pointsWithin (cs : List Char) :
    PointsWithin (Closing.of cs).outside cs.length ∧
      PointsWithin (Closing.of cs).inDouble cs.length ∧
      PointsWithin (Closing.of cs).inSingle cs.length := by
  induction cs with
  | nil => simp [PointsWithin, Closing.of, Closing.atEnd]
  | cons c cs ih =>
    obtain ⟨houtside, hdouble, hsingle⟩ := ih
    rw [Closing.of_cons, List.length_cons]
    simp only [Closing.before]
    refine ⟨?_, ?_, ?_⟩
    · split
      · intro n hn
        cases hn
        exact Nat.succ_pos _
      · split
        · exact hdouble.succ
        · split
          · exact hsingle.succ
          · exact houtside.succ
    · split
      · exact houtside.succ
      · exact hdouble.succ
    · split
      · exact houtside.succ
      · exact hsingle.succ

theorem length_withClosing (cs : List Char) : (withClosing cs).length = cs.length := by
  have h := congrArg List.length (withClosing_map_fst cs)
  rwa [List.length_map] at h

theorem marksWithin_withClosing (cs : List Char) : MarksWithin (withClosing cs) := by
  induction cs with
  | nil =>
    intro c n rest h
    exact absurd (List.suffix_nil.mp h) (List.cons_ne_nil _ _)
  | cons d cs ih =>
    intro c n rest h
    rw [withClosing_cons] at h
    rcases List.suffix_cons_iff.mp h with heq | hsuffix
    · obtain ⟨hhead, rfl⟩ := List.cons.inj heq
      have hmark : (Closing.of cs).outside = some n := (congrArg Prod.snd hhead).symm
      rw [length_withClosing]
      exact (Closing.pointsWithin cs).1 n hmark
    · exact ih c n rest hsuffix

/-! ### Pieces -/

/-- What a token costs. -/
def Token.cost (token : Token) : Nat := token.literalLength + if token.opens then 3 else 0

/-- What a piece costs. -/
def Piece.cost : Piece → Nat
  | .char _ => 1
  | .literal source => source.length
  | .tag t => (Token.tag t).cost

theorem parse?_eq_some {body : List Char} {source : String} {tag : Tag}
    (h : Tag.parse? body source = some tag) : tag.source = source ∧ body ≠ [] := by
  have hbody : body ≠ [] := by
    rintro rfl
    cases h
  refine ⟨?_, hbody⟩
  unfold Tag.parse? at h
  split at h <;> simp only at h <;> split at h
  · cases h
    rfl
  · cases h
  · obtain ⟨attributes, -, rfl⟩ := Option.map_eq_some_iff.mp h
    rfl
  · cases h

theorem cost_bracketed {n : Nat} {rest : List Marked} (h : n < rest.length) :
    (bracketed n rest).1.cost ≤ n + 2 := by
  have hlength : ((rest.take n).map Prod.fst).length = n := by
    rw [List.length_map, List.length_take]
    omega
  simp only [bracketed]
  split
  · rename_i tag hparse
    obtain ⟨hsource, hbody⟩ := parse?_eq_some hparse
    have hpos := List.length_pos_iff.mpr hbody
    simp only [Piece.cost, Token.cost, Token.literalLength, Token.opens, hsource, bne_iff_ne,
      String.length_ofList, List.length_cons, List.length_append, List.length_nil, hlength] at *
    by_cases hkind : tag.kind = .closing
    · simp only [hkind, ne_eq, not_true_eq_false, if_true, if_false]
      omega
    · simp only [hkind, ne_eq, not_false_eq_true, if_true, if_false]
      omega
  · simp only [Piece.cost, String.length_ofList, List.length_cons, List.length_append,
      List.length_nil, hlength]
    omega

/-- A piece is cut off the front, and its characters pay for it. -/
theorem piece_eq_drop (c : Char) (closing : Option Nat) (rest : List Marked)
    (h : ∀ n, closing = some n → n < rest.length) :
    ∃ k ≤ rest.length, (piece c closing rest).2 = rest.drop k ∧
      (piece c closing rest).1.cost ≤ k + 1 := by
  unfold piece
  split
  case h_6 n =>
    have hn := h n rfl
    refine ⟨n + 1, hn, ?_, cost_bracketed hn⟩
    simp only [bracketed]
    split <;> rfl
  case h_1 rest => exact ⟨1, by simp, rfl, Nat.le_succ 1⟩
  case h_2 rest => exact ⟨1, by simp, rfl, Nat.le_succ 1⟩
  case h_3 rest => exact ⟨3, by simp, rfl, by simp [Piece.cost]⟩
  case h_4 rest => exact ⟨3, by simp, rfl, by simp [Piece.cost]⟩
  case h_5 rest => exact ⟨4, by simp, rfl, by simp [Piece.cost]⟩
  case h_7 => exact ⟨0, Nat.zero_le _, rfl, Nat.le_refl 1⟩

/-! ### Sources -/

/-- What tokens cost together. -/
def totalCost (tokens : List Token) : Nat := (tokens.map Token.cost).sum

theorem totalCost_append (xs ys : List Token) :
    totalCost (xs ++ ys) = totalCost xs + totalCost ys := by
  simp [totalCost]

theorem totalCost_eq (tokens : List Token) : totalCost tokens =
    (tokens.map Token.literalLength).sum + 3 * tokens.countP Token.opens := by
  induction tokens with
  | nil => rfl
  | cons token tokens ih =>
    rw [totalCost] at *
    rw [List.map_cons, List.sum_cons, ih, List.map_cons, List.sum_cons, List.countP_cons,
      Token.cost]
    split <;> omega

namespace Reading

/-- What the tokens that have been read cost, the pending text included. -/
def cost (r : Reading) : Nat := totalCost r.tokens.toList + r.text.length

theorem totalCost_flush (r : Reading) : totalCost r.flush.toList = r.cost := by
  unfold flush cost
  split
  · rename_i h
    rw [String.isEmpty_iff.mp h]
    rfl
  · rw [Array.toList_push, totalCost_append]
    simp [totalCost, Token.cost, Token.literalLength, Token.opens]

theorem cost_add (r : Reading) (p : Piece) : (r.add p).cost = r.cost + p.cost := by
  cases p with
  | char c => simp only [add, cost, String.length_push, Piece.cost, Nat.add_assoc]
  | literal source => simp only [add, cost, String.length_append, Piece.cost, Nat.add_assoc]
  | tag t =>
    have hflush : totalCost r.flush.toList = r.cost := r.totalCost_flush
    have htag : totalCost [.tag t] = (Token.tag t).cost := Nat.add_zero _
    simp only [add, Piece.cost, ← hflush]
    rw [cost, Array.toList_push, totalCost_append, htag]
    rfl

theorem cost_addAll_le (r : Reading) (source : List Marked) (h : MarksWithin source) :
    (r.addAll source).cost ≤ r.cost + source.length := by
  match source, h with
  | [], _ =>
    rw [addAll]
    exact Nat.le_refl _
  | (c, closing) :: rest, h =>
    have hclosing : ∀ n, closing = some n → n < rest.length := by
      rintro n rfl
      exact h c n rest (List.suffix_refl _)
    obtain ⟨k, hk, hdrop, hcost⟩ := piece_eq_drop c closing rest hclosing
    have hrest := cost_addAll_le (r.add (piece c closing rest).1) (rest.drop k)
      (h.of_suffix ((List.drop_suffix k rest).trans (List.suffix_cons _ _)))
    rw [addAll, hdrop]
    rw [cost_add, List.length_drop] at hrest
    rw [List.length_cons]
    omega
termination_by source.length

end Reading

/-- A source has the characters that its tokens cost. -/
theorem totalCost_tokenize_le (source : String) : totalCost (tokenize source) ≤ source.length := by
  have h := Reading.cost_addAll_le {} _ (marksWithin_withClosing source.toList)
  have hlength : (withClosing source.toList).length = source.length := by
    rw [← String.length_toList, ← length_withClosing]
  rw [tokenize, Reading.totalCost_flush]
  have hempty : Reading.cost {} = 0 := rfl
  omega

end KineticText.Markup
