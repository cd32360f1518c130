import KineticText.Attribute
import KineticText.Logged
import KineticText.Text.Caseless
import KineticText.Text.Quoted

/-! The registry of tags.  Each registered name has a resolver, which turns a tag's parameters into
attributes, and an alias stands for a registered name.  Names ignore the case of ASCII letters.  A
registered name always wins over an alias of the same spelling. -/

namespace KineticText

/-- What turns a tag into attributes: it sees the tag's parameters and the attributes of the
elements around it, the outermost first. -/
abbrev Resolver : Type := Params → List Attribute → Logged (List Attribute)

/-- Names with their resolvers, and aliases with the names they stand for. -/
structure Registry where
  resolvers : List (String × Resolver) := []
  aliases : List (String × String) := []

namespace Registry

/-- Puts a value under a key, in place of the one that is there. -/
def put {α : Type} (key : String) (value : α) (entries : List (String × α)) : List (String × α) :=
  (key, value) :: entries.filter (·.1 != key)

/-- Registers a resolver under a name, which is no alias any more. -/
def register (r : Registry) (name : String) (resolver : Resolver) : Registry :=
  let name := Text.fold name
  ⟨put name resolver r.resolvers, r.aliases.filter (·.1 != name)⟩

/-- The registered name that a tag stands for. -/
def canonical? (r : Registry) (tag : String) : Option String :=
  let name := Text.fold tag
  if (r.resolvers.lookup name).isSome then some name else r.aliases.lookup name

def contains (r : Registry) (tag : String) : Bool := (r.canonical? tag).isSome

/-- Lets `name` stand for what `target` stands for; nothing happens when that is not registered.
Gives whether it is. -/
def addAlias (r : Registry) (name target : String) : Bool × Registry :=
  match r.canonical? target with
  | none => (false, r)
  | some target => (true, { r with aliases := put (Text.fold name) target r.aliases })

/-- The attributes of a tag, or `none` when nothing is registered for it. -/
def resolve (r : Registry) (tag : String) (params : Params) (enclosing : List Attribute) :
    Logged (Option (List Attribute)) :=
  match (r.canonical? tag).bind (r.resolvers.lookup ·) with
  | none => pure none
  | some resolver => some <$> resolver params enclosing

/-- The registered names in order. -/
def names (r : Registry) : List String :=
  (r.resolvers.map Prod.fst).mergeSort fun a b => decide (a ≤ b)

/-- The registry in diagnostic texts. -/
def diagnostic (r : Registry) : String :=
  "EffectRegistry \x7b resolvers: " ++ Text.quotedList r.names ++ ", aliases: " ++
    toString r.aliases.length ++ " \x7d"

end Registry

end KineticText
