import SymbolicPaths.Routine
/-!
# Arrows

An arrow turns arguments into a computation.  Calling one only records the arguments: the function
behind it is not invoked before the resulting computation is applied to a state, so arrows may call
each other without end as long as no path does.

## Names

A function may say that it stands for another one, which it wraps; it then usually has taken over the name
of the other one as well (`Label.wrapping`).  An arrow that is built from a function looks one such link into
it and carries the name that it finds there.

An arrow that is built from an arrow (`partialApply`, `andThen`, `fmap`) is the arrow of a new function, which
wraps the function *inside* the old one.  So the new arrow is called what that function is called (`inner?`),
and the new function passes that name on, or has a name of its own if there is none to pass on.
-/

namespace SymbolicPaths

/-- The arguments of a call. -/
structure Args (V : Type) where
  positional : List V := []
  /-- Arguments by keyword, each keyword once. -/
  named : List (String × V) := []

namespace Args

variable {V : Type}

/-- Gives a keyword a value: in its place if it has one, else as the last. -/
def setNamed (name : String) (v : V) : List (String × V) → List (String × V)
  | [] => [(name, v)]
  | (n, w) :: rest => if n = name then (n, v) :: rest else (n, w) :: setNamed name v rest

/-- The arguments of two calls together: positions one after the other, and of two values for a
keyword the later. -/
def merge (a b : Args V) : Args V where
  positional := a.positional ++ b.positional
  named := b.named.foldl (fun named e => setNamed e.1 e.2 named) a.named

@[simp] theorem positional_merge (a b : Args V) :
    (a.merge b).positional = a.positional ++ b.positional := rfl

end Args

/-- What a function is called. -/
structure Label where
  /-- Its own name, if it has one. -/
  own? : Option String
  /-- If it says that it stands for another function, the name of that one. -/
  wrapped? : Option (Option String) := none

namespace Label

/-- The name that is found one link into a function. -/
def found? (label : Label) : Option String := label.wrapped?.getD label.own?

/-- A function that wraps another one takes over its name, if there is one to take over. -/
def wrapping (name? : Option String) (fallback : String) : Label := ⟨some (name?.getD fallback), some name?⟩

end Label

/-- A function from arguments to computations. -/
structure Arrow (V α : Type) where
  /-- The name of the arrow, if it has one. -/
  name? : Option String
  /-- The name of the function inside. -/
  inner? : Option String
  invoke : Args V → Run V (Comp V α)

namespace Arrow

variable {V α β σ : Type}

/-- The name that computations of the arrow carry. -/
def name (k : Arrow V α) : String := k.name?.getD "<kleisli>"

/-- The computation that invokes the arrow when it is applied. -/
def deferred [Term V] (k : Arrow V α) (args : Args V) : Comp V α := Comp.defer k.name (k.invoke args)

/-- Calls an arrow.  Nothing is invoked yet, but the keyword for the arrow itself is taken. -/
def call [Term V] (k : Arrow V α) (args : Args V) : Run V (Comp V α) :=
  if args.named.any fun e => e.1 == "self" then Run.reject .arrowGivenTwice
  else pure (k.deferred args)

/-- The arrow of a function. -/
def ofFunction (label : Label) (f : Args V → Run V (Comp V α)) : Arrow V α :=
  ⟨label.found?, label.own?, f⟩

/-- The arrow of a function that is called through a factory. -/
def ofWrapped (name? : Option String) (f : Args V → Run V (Comp V α)) : Arrow V α :=
  ofFunction (.wrapping name? "comp_factory") f

/-- The arrow of a routine with parameters. -/
def ofRoutine [Term V] (name? : Option String) (fuel : Nat) (body : Args V → Routine V σ α) : Arrow V α :=
  ofWrapped name? fun args => pure ((body args).comp (name?.getD "<do>") fuel)

/-- An arrow around another one, whose function inside is called `fallback` if nothing else. -/
def around (k : Arrow V α) (fallback : String) (f : Args V → Run V (Comp V β)) : Arrow V β :=
  ofFunction (.wrapping k.inner? fallback) f

/-- The arrow with some arguments already given. -/
def partialApply [Term V] (k : Arrow V α) (given : Args V) : Arrow V α :=
  k.around "applied" fun more => k.call (given.merge more)

/-- Continues what an arrow computes. -/
def andThen [Term V] (k : Arrow V α) (f : α → Run V (Comp V β)) : Arrow V β :=
  k.around "composed" fun args => do return (← k.call args).bind f

/-- Maps the results of what an arrow computes. -/
def fmap [Term V] (k : Arrow V α) (f : α → Run V β) : Arrow V β :=
  k.around "mapped" fun args => do return (← k.call args).map f

/-! ## Names of arrows from arrows -/

@[simp] theorem name?_partialApply [Term V] (k : Arrow V α) (given : Args V) :
    (k.partialApply given).name? = k.inner? := rfl

@[simp] theorem name?_andThen [Term V] (k : Arrow V α) (f : α → Run V (Comp V β)) :
    (k.andThen f).name? = k.inner? := rfl

@[simp] theorem name?_fmap [Term V] (k : Arrow V α) (f : α → Run V β) :
    (k.fmap f).name? = k.inner? := rfl

end Arrow

end SymbolicPaths
