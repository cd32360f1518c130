import KineticText.Proofs.Effect.Written
import KineticText.Proofs.Markup.Flattening
import KineticText.Proofs.Registry.Builtin
import KineticText.Proofs.Registry.Names

/-! Typewriters in each other.  A typewriter takes a parameter that it does not have from the
nearest one around it, which may have taken it from another.  Going down a chain of elements, the
number of the nearest typewriter therefore always is the one that was written last, and elements
of other kinds leave it alone. -/

namespace KineticText

open Params

namespace Registry

/-! ### One typewriter -/

/-- The nearest typewriter around. -/
def nearestTypewriter (enclosing : List Attribute) : Option Attribute :=
  enclosing.reverse.find? (·.id == "typewriter")

/-- What the nearest typewriter around gives for a parameter, and the default when none does. -/
def inherited (p : Parameter) (enclosing : List Attribute) : Float :=
  ((nearestTypewriter enclosing).bind (·.params.number? p.name)).getD p.default

/-- What a typewriter makes of a parameter among the attributes around it. -/
def taken (p : Parameter) (enclosing : List Attribute) (params : Params) : Float :=
  if p.isPresent params then p.quiet params else inherited p enclosing

/-- The typewriter that parameters describe among the attributes around it. -/
def typewriterWithin (enclosing : List Attribute) (params : Params) : Typewriter where
  speed := taken .typewriterSpeed enclosing params
  delay := taken .typewriterDelay enclosing params
  center := (params.flag? "center").getD false

theorem value_typewriterTag (params : Params) (enclosing : List Attribute) :
    (typewriterTag params enclosing).value =
      [{ id := "typewriter", params := .ofList (typewriterWithin enclosing params).entries }] := by
  have hvalue : ∀ p : Parameter, (if p.isPresent params then p.read "typewriter" params
      else pure (inherited p enclosing)).value = taken p enclosing params := by
    intro p
    unfold taken
    split
    · exact Parameter.value_read p "typewriter" params
    · rfl
  unfold typewriterTag
  simp only [Logged.value_bind, Logged.value_pure]
  rw [Typewriter.entries, typewriterWithin, ← hvalue, ← hvalue]
  rfl

theorem nearestTypewriter_append (before own : List Attribute) :
    nearestTypewriter (before ++ own) = (nearestTypewriter own).or (nearestTypewriter before) := by
  rw [nearestTypewriter, List.reverse_append, List.find?_append]
  rfl

theorem nearestTypewriter_filter (enclosing : List Attribute) :
    nearestTypewriter (enclosing.filter (·.id == "typewriter")) = nearestTypewriter enclosing := by
  rw [nearestTypewriter, ← List.filter_reverse, List.find?_filter]
  refine congrArg (List.find? · enclosing.reverse) (funext fun a => ?_)
  cases a.id == "typewriter" <;> rfl

/-- Only the tag of a typewriter gives typewriters. -/
theorem givesOnly_of_ne_typewriter : ∀ entry ∈ builtinTags, entry.1 ≠ "typewriter" →
    ∃ name, name ≠ "typewriter" ∧ GivesOnly name entry.2 := by
  simp only [builtinTags, List.forall_mem_cons]
  exact ⟨fun _ => ⟨"bold", by decide, givesOnly_plainTag _⟩,
    fun _ => ⟨"italic", by decide, givesOnly_plainTag _⟩,
    fun _ => ⟨"underline", by decide, givesOnly_plainTag _⟩,
    fun _ => ⟨"strikethrough", by decide, givesOnly_plainTag _⟩,
    fun _ => ⟨"color", by decide, givesOnly_colorTag⟩,
    fun _ => ⟨"font", by decide, givesOnly_fontTag⟩, fun h => absurd rfl h,
    fun _ => ⟨"obfuscate", by decide, givesOnly_scrambleTag⟩,
    fun _ => ⟨"shake", by decide, givesOnly_shakeTag _⟩,
    fun _ => ⟨"shake", by decide, givesOnly_shakeTag _⟩,
    fun _ => ⟨"shake", by decide, givesOnly_shakeTag _⟩,
    fun _ => ⟨"shake", by decide, givesOnly_shakeTag _⟩,
    fun _ => ⟨"gradient", by decide, givesOnly_gradientTag⟩,
    fun _ => ⟨"rainbow", by decide, givesOnly_rainbowTag⟩,
    fun _ => ⟨"span", by decide, givesOnly_groupTag _⟩,
    fun _ => ⟨"group", by decide, givesOnly_groupTag _⟩, List.forall_mem_nil _⟩

end Registry

namespace Markup

open Registry

/-! ### Chains of elements -/

/-- The parameters that are written on an element. -/
def Element.params (e : Element) : Params := .ofTexts e.attributes

def Element.isTypewriter (e : Element) : Bool := builtin.canonical? e.tag == some "typewriter"

/-- The number that is in force under elements: what the innermost typewriter that has the parameter
makes of what is written, and the default when none has it. -/
def inForce (p : Parameter) (elements : List Element) : Float :=
  match elements.reverse.find? fun e => e.isTypewriter && p.isPresent e.params with
  | some e => p.quiet e.params
  | none => p.default

/-- The attribute of a typewriter that is the last of `elements`. -/
def typewriterUnder (elements : List Element) (e : Element) : Attribute where
  id := "typewriter"
  params := .ofList [("speed", .number (inForce .typewriterSpeed elements)),
    ("delay", .number (inForce .typewriterDelay elements)),
    ("center", .flag ((e.params.flag? "center").getD false))]
  extent := e.extent

/-- The attributes of the typewriters among elements that lie in each other. -/
def typewriters (elements : List Element) : List Attribute :=
  elements.inits.filterMap fun elements =>
    (elements.getLast?.filter (·.isTypewriter)).map (typewriterUnder elements)

theorem contribution_typewriter {e : Element} (h : e.isTypewriter = true) (chain : List Attribute) :
    e.contribution builtin chain = [{
      id := "typewriter"
      params := .ofList (typewriterWithin chain e.params).entries
      extent := e.extent }] := by
  have htag : builtin.canonical? e.tag = some "typewriter" := beq_iff_eq.mp h
  unfold Element.contribution
  rw [resolve_of_canonical? htag typewriterTag_mem, Logged.value_map, value_typewriterTag]
  rfl

theorem filter_contribution {e : Element} (h : e.isTypewriter = false) (chain : List Attribute) :
    (e.contribution builtin chain).filter (·.id == "typewriter") = [] := by
  have hname : builtin.canonical? e.tag ≠ some "typewriter" := beq_eq_false_iff_ne.mp h
  have hother : ∀ own, (builtin.resolve e.tag (.ofTexts e.attributes) chain).value = some own →
      ∀ a ∈ own, a.id ≠ "typewriter" := by
    intro own hown a ha
    cases htag : builtin.canonical? e.tag with
    | none =>
      rw [resolve, htag] at hown
      cases hown
    | some name =>
      obtain ⟨resolver, hmem⟩ := exists_resolver htag
      obtain ⟨id, hid, hgives⟩ := givesOnly_of_ne_typewriter _ hmem fun heq => hname (heq ▸ htag)
      rw [resolve_of_canonical? htag hmem, Logged.value_map] at hown
      rw [hgives _ _ a (Option.some.inj hown ▸ ha)]
      exact hid
  unfold Element.contribution
  cases hown : (builtin.resolve e.tag (.ofTexts e.attributes) chain).value with
  | none => rfl
  | some own =>
    refine List.filter_eq_nil_iff.mpr fun a ha => ?_
    obtain ⟨a', ha', rfl⟩ := List.mem_map.mp ha
    simpa using hother own hown a' ha'

theorem chainOf_concat (chain : List Attribute) (elements : List Element) (e : Element) :
    chainOf builtin chain (elements ++ [e]) = chainOf builtin chain elements ++
      e.contribution builtin (chainOf builtin chain elements) := by
  rw [chainOf, List.foldl_append]
  rfl

/-! ### Numbers in force -/

theorem admits_inForce {p : Parameter} (hp : p ∈ Parameter.declared) (elements : List Element) :
    p.Admits (inForce p elements) := by
  unfold inForce
  split
  · exact Parameter.admits_quiet hp _
  · exact (Parameter.admits_declared p hp).1

theorem inForce_concat (p : Parameter) (elements : List Element) (e : Element) :
    inForce p (elements ++ [e]) = if e.isTypewriter && p.isPresent e.params then p.quiet e.params
      else inForce p elements := by
  unfold inForce
  rw [List.reverse_append, List.reverse_singleton, List.singleton_append, List.find?_cons]
  cases e.isTypewriter && p.isPresent e.params <;> rfl

/-- What a typewriter takes is in force from it on, when the one around it has what was in force. -/
theorem taken_eq_inForce {p : Parameter} {elements : List Element} {e : Element}
    {chain : List Attribute} (he : e.isTypewriter = true)
    (h : inherited p chain = inForce p elements) :
    taken p chain e.params = inForce p (elements ++ [e]) := by
  rw [inForce_concat, he, Bool.true_and, taken, h]

theorem inherited_chainOf {p : Parameter}
    (hp : p = Parameter.typewriterSpeed ∨ p = Parameter.typewriterDelay)
    (elements : List Element) :
    inherited p (chainOf builtin [] elements) = inForce p elements := by
  have hdeclared := Parameter.mem_declared_of_typewriter hp
  -- The induction is on the chain from the outside in: the nearest typewriter has what was in force
  -- above it, or has just written its own number.
  induction elements using List.reverseRecOn with
  | nil => rfl
  | append_singleton elements e ih =>
    rw [chainOf_concat, inherited, nearestTypewriter_append]
    cases he : e.isTypewriter with
    | false =>
      have hown : nearestTypewriter (e.contribution builtin (chainOf builtin [] elements)) =
          none := by
        rw [← nearestTypewriter_filter, filter_contribution he]
        rfl
      rw [hown, Option.none_or, ← inherited, ih, inForce_concat, he]
      rfl
    | true =>
      have htaken := taken_eq_inForce he ih
      have hnumber : (Params.ofList (typewriterWithin (chainOf builtin [] elements)
          e.params).entries).number? p.name = some (inForce p (elements ++ [e])) := by
        refine Params.number?_of_get? (Typewriter.get?_entries _ ?_)
          (admits_inForce hdeclared _).1
        rw [← htaken]
        rcases hp with rfl | rfl
        · exact .head _
        · exact .tail _ (.head _)
      rw [contribution_typewriter he]
      show ((Params.ofList _).number? p.name).getD p.default = _
      rw [hnumber, Option.getD_some]

/-- A typewriter has the numbers in force when the nearest one around it has those around it. -/
theorem contribution_eq_typewriterUnder {elements : List Element} {e : Element}
    {chain : List Attribute} (he : e.isTypewriter = true)
    (h : ∀ p, p = Parameter.typewriterSpeed ∨ p = Parameter.typewriterDelay →
      inherited p chain = inForce p elements) :
    e.contribution builtin chain = [typewriterUnder (elements ++ [e]) e] := by
  rw [contribution_typewriter he, typewriterWithin, taken_eq_inForce he (h _ (.inl rfl)),
    taken_eq_inForce he (h _ (.inr rfl))]
  rfl

theorem typewriters_concat (elements : List Element) (e : Element) :
    typewriters (elements ++ [e]) = typewriters elements ++
      if e.isTypewriter then [typewriterUnder (elements ++ [e]) e] else [] := by
  have hinits : (elements ++ [e]).inits = elements.inits ++ [elements ++ [e]] := by
    rw [List.inits_append]
    rfl
  rw [typewriters, hinits, List.filterMap_append, ← typewriters]
  cases he : e.isTypewriter <;> simp [he]

/-- The typewriters of a chain are those of its elements, each with the numbers that are in force
there, and elements of other kinds do not matter to them. -/
theorem filter_chainOf_eq_typewriters (elements : List Element) :
    (chainOf builtin [] elements).filter (·.id == "typewriter") = typewriters elements ∧
      chainOf builtin [] (elements.filter (·.isTypewriter)) = typewriters elements := by
  induction elements using List.reverseRecOn with
  | nil => exact ⟨rfl, rfl⟩
  | append_singleton elements e ih =>
    obtain ⟨ihChain, ihOnly⟩ := ih
    rw [typewriters_concat, chainOf_concat, List.filter_append, List.filter_append, ihChain]
    cases he : e.isTypewriter with
    | false =>
      rw [filter_contribution he, List.filter_cons_of_neg (by simp [he])]
      simpa using ihOnly
    | true =>
      -- A typewriter sees no other attributes, so it is the same in either chain.
      have hsame : ∀ p, inherited p (typewriters elements) =
          inherited p (chainOf builtin [] elements) := by
        intro p
        rw [← ihChain, inherited, nearestTypewriter_filter, inherited]
      have hchain := contribution_eq_typewriterUnder he fun p hp => inherited_chainOf hp elements
      have honly := contribution_eq_typewriterUnder he
        fun p hp => (hsame p).trans (inherited_chainOf hp elements)
      refine ⟨?_, ?_⟩
      · rw [hchain]
        rfl
      · rw [List.filter_cons_of_pos he, List.filter_nil, chainOf_concat, ihOnly, honly]
        rfl

end Markup

end KineticText
