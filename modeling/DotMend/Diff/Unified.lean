import DotMend.Diff.Lines

namespace DotMend.Diff

inductive Change (α : Type) where
  | keep (a : α)
  | remove (a : α)
  | add (a : α)
  deriving DecidableEq, Repr

namespace Change

variable {α : Type}

def line : Change α → α
  | keep a | remove a | add a => a

def sign : Change α → Char
  | keep _ => ' '
  | remove _ => '-'
  | add _ => '+'

def isEnded (c : Change Text) : Bool := c.line.isEnded

-- A line without an end is given one where it is shown, and another one is printed behind it.
def shown (c : Change Text) : Text := c.line ++ if c.isEnded then [] else ['\n']

def text (c : Change Text) : Text := c.sign :: c.shown ++ if c.isEnded then [] else ['\n']

end Change

structure Hunk where
  header : Text
  changes : List (Change Text)
  deriving DecidableEq, Repr

def Hunk.text (h : Hunk) : Text := h.header ++ '\n' :: h.changes.flatMap Change.text

def pathText (path : String) : Text := s!"--- a/{path}\n+++ b/{path}\n".toList

def unified (path : String) (hs : List Hunk) : Text := pathText path ++ hs.flatMap Hunk.text

end DotMend.Diff
