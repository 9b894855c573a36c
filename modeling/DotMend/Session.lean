import DotMend.Mend

namespace DotMend

structure Session where
  text : Text
  offered : List Action
  saved : List Command
  deriving Repr

namespace Session

inductive Step where
  | offer (request : Span)
  | save (index : Nat)
  | run (index : Nat)
  | replay (index : Nat)
  | edit (e : Edit)
  | mend
  deriving Repr

inductive Answer where
  | offered (actions : List Action)
  | saved (c : Command)
  | changed
  | nothingToMend
  | noSuchAction
  | failed (e : MendError)
  deriving Repr

def start (t : Text) : Session := ⟨t, [], []⟩

def became (s : Session) : Except MendError Text → Session × Answer
  | .ok t => ({ s with text := t }, .changed)
  | .error e => (s, .failed e)

def perform (s : Session) (c : Option Command) : Session × Answer :=
  match c with
  | none => (s, .noSuchAction)
  | some c => s.became ((c.apply s.text (Source.ofText s.text)).map Prod.snd)

def step (s : Session) : Step → Session × Answer
  | .offer request =>
    let actions := Action.offers s.text (Source.ofText s.text) request
    ({ s with offered := actions }, .offered actions)
  | .save index =>
    match s.offered[index]? with
    | none => (s, .noSuchAction)
    | some a => ({ s with saved := s.saved ++ [a.command] }, .saved a.command)
  | .run index => s.perform (s.offered[index]?.map Action.command)
  | .replay index => s.perform s.saved[index]?
  | .edit e => s.became ((Edit.applyAll s.text [e]).mapError .edit)
  | .mend =>
    match DotMend.mend s.text with
    | .ok none => (s, .nothingToMend)
    | .ok (some m) => s.became (.ok m.text)
    | .error e => (s, .failed e)

end Session

end DotMend
