/-!
# Faults

A fault is a failure that concerns one file or a run as a whole.  It has a
category, which says at what stage the work failed, and a message for the user.
Nothing else leaves a unit of work that did not succeed.

What makes a whole run impossible, such as settings that cannot be read, is a
complaint: a message and the chain of causes behind it.
-/

namespace Restyle

/-- The stage at which some work failed. -/
inductive Category where
  /-- Getting at an input. -/
  | reading
  /-- Producing an output, or saving the cache. -/
  | writing
  /-- Making sense of a source text. -/
  | parsing
  /-- Making sense of what was asked for. -/
  | options
deriving Repr, DecidableEq

namespace Category

/-- The name of a category. -/
def name : Category → String
  | reading => "reading"
  | writing => "writing"
  | parsing => "parsing"
  | options => "options"

/-- Every category. -/
def all : List Category := [reading, writing, parsing, options]

/-- The category with a given name. -/
def ofName? (s : String) : Option Category := all.find? (·.name == s)

end Category

/-- A failure with its category and its message. -/
structure Fault where
  /-- The stage that failed. -/
  category : Category
  /-- What the user is told. -/
  message : String
deriving Repr, DecidableEq

/-- An error that ends a run, with what led to it, outermost first. -/
structure Complaint where
  /-- What went wrong. -/
  message : String
  /-- What led to it. -/
  causes : List String := []
deriving Repr, DecidableEq

/-- A complaint on one line. -/
def Complaint.line (c : Complaint) : String := ": ".intercalate (c.message :: c.causes)

/-- A fault that ends a run. -/
def Fault.complaint (f : Fault) : Complaint := ⟨f.message, []⟩

end Restyle
