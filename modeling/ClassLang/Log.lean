import ClassLang.Event
import ClassLang.Files
import ClassLang.Text.Quoted

namespace ClassLang

inductive Level
  | debug | trace
deriving DecidableEq, Repr, Inhabited

def Level.ofString? (s : String) : Option Level :=
  match s.toLower with
  | "debug" => some .debug
  | "trace" => some .trace
  | _ => none

def Level.text : Level → String
  | debug => "DEBUG"
  | trace => "TRACE"

/-- The finer level shows all, the coarser one only its own. -/
def Level.shows : Level → Level → Bool
  | .trace, _ => true
  | .debug, l => l = .debug

structure LogLine where
  level : Level
  /-- Who says what. -/
  text : String
deriving DecidableEq, Repr, Inhabited

def LogLine.render (l : LogLine) : String := l.level.text ++ " " ++ l.text

def Level.startsLine (line : String) : Bool :=
  [debug, trace].any fun l => line.startsWith (l.text ++ " ")

namespace Log

def value (key text : String) : String := " " ++ key ++ "=" ++ text

def count (key : String) (n : Nat) : String := value key (toString n)

def quoted (key text : String) : String := value key (Text.quoted text)

def start : LogLine := ⟨.debug, "quill: tracing initialized"⟩

def line (files : Files) (path : String → String) : Event → LogLine
  | .requested name =>
    match files.read (path name) with
    | .ok _ => ⟨.debug, "quill: module read" ++ value "path" (path name)⟩
    | .error e =>
      ⟨.debug, "quill: module not readable" ++ value "path" (path name) ++ value "err" e.text⟩
  | .moduleLoaded name version classes =>
    ⟨.debug, "quill_parser: module loaded" ++ quoted "module" name ++ count "version" version ++
      count "classes" classes⟩
  | .classFlattened name members bases =>
    ⟨.debug, "resolve_names: quill_resolve::flatten: class flattened" ++ value "class" name ++
      count "members" members ++ count "bases" bases⟩
  | .namesResolved classes functions =>
    ⟨.debug, "resolve_names: quill_resolve::resolve: names resolved" ++ count "classes" classes ++
      count "functions" functions⟩
  | .typing node label =>
    ⟨.trace, "check_types: quill_types::check: typing" ++ count "action" node ++
      quoted "kind" label⟩
  | .dispatchBuilt name entries =>
    ⟨.debug, "check_types: quill_types::dispatch: dispatch table built" ++ value "class" name ++
      count "entries" entries⟩
  | .coldFixed cold signature =>
    ⟨.debug, "check_types: quill_types::lambda: cold lambda fixed" ++ count "cold" cold ++
      value "signature" signature⟩
  | .typesChecked types insts colds =>
    ⟨.debug, "check_types: quill_types: types checked" ++ count "types" types ++
      count "instances" insts ++
      count "colds" colds⟩
  | .finished root => ⟨.debug, "quill: check finished" ++ value "root" root⟩

end Log

end ClassLang
