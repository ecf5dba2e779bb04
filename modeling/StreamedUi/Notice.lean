/-! What the program reports beside its results: short messages of three levels. -/

namespace StreamedUi

/-- How urgent a message is. -/
inductive Level
  | debug
  | info
  | warn
  deriving DecidableEq, Repr

/-- The name under which a level is printed. -/
def Level.name : Level → String
  | .debug => "DEBUG"
  | .info => "INFO"
  | .warn => "WARN"

/-- A message and its level. -/
structure Notice where
  level : Level
  message : String
  deriving DecidableEq, Repr

namespace Notice

/-- A detail, of use when something is looked into. -/
def debug (message : String) : Notice := ⟨.debug, message⟩

/-- What everyone may want to know. -/
def info (message : String) : Notice := ⟨.info, message⟩

/-- Something that is likely wrong. -/
def warn (message : String) : Notice := ⟨.warn, message⟩

/-- The level, then the message. -/
def line (n : Notice) : String := n.level.name ++ " " ++ n.message

end Notice

end StreamedUi
