import KineticText.Markup.Bracket
import KineticText.Markup.Tag

/-! Where tags end.  A balanced body closes all of its quotes and has no `>` outside them, so the
bracket that follows it is the one that closes a tag opened before it. -/

namespace KineticText.Markup

theorem Closing.of_cons (c : Char) (cs : List Char) :
    Closing.of (c :: cs) = (Closing.of cs).before c :=
  rfl

theorem isQuote_iff {c : Char} : isQuote c = true ↔ c = '"' ∨ c = '\'' := by
  simp [isQuote]

/-- How many characters stand before the next `>` outside quotes, when the quote `q` is open. -/
def Closing.inside (q : Char) (closing : Closing) : Option Nat :=
  if q = '"' then closing.inDouble else closing.inSingle

/-- Seen from before `body`, the next bracket outside quotes is the first one after it. -/
def Balanced (body : List Char) : Prop :=
  ∀ rest, (Closing.of (body ++ rest)).outside = (Closing.of rest).outside.map (· + body.length)

theorem balanced_nil : Balanced [] := by
  intro rest
  simp

theorem Balanced.append {xs ys : List Char} (hx : Balanced xs) (hy : Balanced ys) :
    Balanced (xs ++ ys) := by
  intro rest
  rw [List.append_assoc, hx, hy, Option.map_map, List.length_append]
  congr 1
  funext n
  simp only [Function.comp_apply]
  omega

theorem balanced_singleton {c : Char} (hc : c ≠ '>') (hq : isQuote c = false) : Balanced [c] := by
  intro rest
  simp only [isQuote, Bool.or_eq_false_iff, beq_eq_false_iff_ne] at hq
  simp [Closing.of_cons, Closing.before, hc, hq]

theorem balanced_of_forall {cs : List Char} (h : ∀ c ∈ cs, c ≠ '>' ∧ isQuote c = false) :
    Balanced cs := by
  induction cs with
  | nil => exact balanced_nil
  | cons c cs ih =>
    have hc := h c List.mem_cons_self
    exact (balanced_singleton hc.1 hc.2).append (ih fun d hd => h d (List.mem_cons_of_mem _ hd))

theorem inside_of_append {q : Char} (hq : isQuote q = true) {v : List Char} (hv : q ∉ v)
    (rest : List Char) :
    (Closing.of (v ++ q :: rest)).inside q =
      (Closing.of rest).outside.map (· + (v.length + 1)) := by
  induction v with
  | nil =>
    rcases isQuote_iff.mp hq with rfl | rfl <;>
      simp [Closing.of_cons, Closing.inside, Closing.before]
  | cons c v ih =>
    simp only [List.mem_cons, not_or] at hv
    have hstep : (Closing.of (c :: (v ++ q :: rest))).inside q =
        ((Closing.of (v ++ q :: rest)).inside q).map (· + 1) := by
      have hne : c ≠ q := Ne.symm hv.1
      rcases isQuote_iff.mp hq with rfl | rfl <;>
        simp [Closing.of_cons, Closing.inside, Closing.before, hne]
    rw [List.cons_append, hstep, ih hv.2, Option.map_map]
    rfl

/-- A text in quotes that it does not contain is balanced, whatever brackets it has. -/
theorem balanced_quoted {q : Char} (hq : isQuote q = true) {v : List Char} (hv : q ∉ v) :
    Balanced (q :: (v ++ [q])) := by
  intro rest
  have hstep : (Closing.of (q :: (v ++ q :: rest))).outside =
      ((Closing.of (v ++ q :: rest)).inside q).map (· + 1) := by
    rcases isQuote_iff.mp hq with rfl | rfl <;>
      simp [Closing.of_cons, Closing.inside, Closing.before]
  rw [List.cons_append, List.append_assoc, List.singleton_append, hstep, inside_of_append hq hv,
    Option.map_map]
  simp only [List.length_cons, List.length_append, List.length_nil]
  rfl

theorem Balanced.outside_closing {body : List Char} (h : Balanced body) (after : List Char) :
    (Closing.of (body ++ '>' :: after)).outside = some body.length := by
  rw [h]
  simp [Closing.of_cons, Closing.before]

end KineticText.Markup
