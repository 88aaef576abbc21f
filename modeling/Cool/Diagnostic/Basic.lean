import Cool.Diagnostic.Defect

/-!
# Diagnostics

A diagnostic is a cause with its place in a file. A defect of the program as a whole, such as a
missing `Main`, has none. `Diagnosed` is a value together with the diagnostics that finding it gave
rise to, in order; finding goes on after a defect, so that there is always a value.

* `Diagnostic`, `Diagnostic.text` : a diagnostic and the line for it;
* `Diagnosed` : values with diagnostics, a monad;
* `Diagnosed.report` : a diagnostic and nothing else.
-/

namespace Cool

inductive Severity where
  | bug
  | error
  | warning
  | note
  | help
  deriving DecidableEq

structure Location where
  file : String
  span : Span
  deriving DecidableEq

structure Diagnostic where
  cause : Cause
  location? : Option Location
  severity : Severity
  deriving DecidableEq

namespace Diagnostic

def message (d : Diagnostic) : String :=
  d.cause.message

def tier (d : Diagnostic) : Tier :=
  d.cause.tier

def file? (d : Diagnostic) : Option String :=
  d.location?.map Location.file

/-- An error without a place. -/
def general (cause : Cause) : Diagnostic :=
  ⟨cause, none, .error⟩

/-- An error in a file. -/
def located (cause : Cause) (file : String) (span : Span) : Diagnostic :=
  ⟨cause, some ⟨file, span⟩, .error⟩

/-- The line for a diagnostic: the file, the line in it and the message. -/
def text (d : Diagnostic) : String :=
  match d.location? with
  | some l => l.file ++ ":" ++ toString l.span.line ++ ": " ++ d.message
  | none => d.message

end Diagnostic

/-! ## Values with diagnostics -/

/-- A value, and what was reported on the way to it. -/
structure Diagnosed (α : Type) where
  value : α
  reports : List Diagnostic

namespace Diagnosed

variable {α β : Type}

instance : Monad Diagnosed where
  pure a := ⟨a, []⟩
  bind x f :=
    let y := f x.value
    ⟨y.value, x.reports ++ y.reports⟩

@[simp] theorem value_pure (a : α) : (pure a : Diagnosed α).value = a := rfl

@[simp] theorem reports_pure (a : α) : (pure a : Diagnosed α).reports = [] := rfl

@[simp] theorem value_bind (x : Diagnosed α) (f : α → Diagnosed β) :
    (x >>= f).value = (f x.value).value := rfl

@[simp] theorem reports_bind (x : Diagnosed α) (f : α → Diagnosed β) :
    (x >>= f).reports = x.reports ++ (f x.value).reports := rfl

/-- Reports a diagnostic. -/
def report (d : Diagnostic) : Diagnosed Unit :=
  ⟨(), [d]⟩

@[simp] theorem value_report (d : Diagnostic) : (report d).value = () := rfl

@[simp] theorem reports_report (d : Diagnostic) : (report d).reports = [d] := rfl

end Diagnosed

end Cool
