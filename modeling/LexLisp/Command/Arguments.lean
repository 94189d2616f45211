import LexLisp.Command.Options

/-!
# Reading the command line

The words of a command line are flags, their values, the name of a command and
arguments, in any order.  After the word `--` all words are arguments.

A flag that takes a value has it after an equals sign or in the next word.  A
switch may be written with a single letter, and several such letters in one
word.

The command is looked for first, since it decides which flags there are.  As
long as it is not known a flag may take a value, so a long flag or a single
letter without an equals sign is passed over together with the next word,
whatever that is: `-e -- run x` names a command, `-- run x` does not.
-/

namespace LexLisp

namespace Command

namespace Switch

/-- The truth value that a text spells. -/
def truth? (t : Text) : Option Bool :=
  let yes : List Text := ["1", "t", "T", "true", "TRUE", "True"]
  let no : List Text := ["0", "f", "F", "false", "FALSE", "False"]
  if yes.contains t then some true else if no.contains t then some false else none

end Switch

/-- The word after which all others are arguments. -/
def endOfFlags : Text := "--"

/-- Is the word a flag? -/
def isFlag : Text → Bool
  | .char '-' :: _ => true
  | _ => false

/-- May the next word be the value of this one, for all that is known before
the command is found? -/
def mayTakeNext : Text → Bool
  | .char '-' :: .char '-' :: flag => !flag.contains (.char '=')
  | [.char '-', letter] => letter != .char '=' && letter.bytes.length == 1
  | _ => false

namespace Task

/-- The first word that may name a command, with the words before it and after
it. -/
def splitAtName : List Text → Option (List Text × Text × List Text)
  | [] => none
  | [word] => if isFlag word || word.isEmpty then none else some ([], word, [])
  | word :: next :: rest =>
    if word = endOfFlags then none
    else if mayTakeNext word then
      if rest.isEmpty then none
      else (splitAtName rest).map fun (before, found) => (word :: next :: before, found)
    else if isFlag word || word.isEmpty then
      (splitAtName (next :: rest)).map fun (before, found) => (word :: before, found)
    else some ([], word, next :: rest)

/-- The command that the words ask for, and the words without its name. -/
def ofWords (words : List Text) : Task × List Text :=
  match splitAtName words with
  | none => (.loop false, words)
  | some (before, name, after) =>
    match ofName? name with
    | some task => (task, before ++ after)
    | none => (.loop false, words)

end Task

namespace Options

/-- Split a long flag at its first equals sign. -/
def splitFlag (word : Text) : Text × Option Text :=
  let name := word.takeWhile (· ≠ .char '=')
  match word.dropWhile (· ≠ .char '=') with
  | _ :: value => (name, some value)
  | [] => (name, none)

/-- Turn on the switches of these letters. -/
def setLetters (word : Text) : List Rune → Options → Except UsageError Options
  | [], o => .ok o
  | letter :: rest, o =>
    match o.task.switches.find? fun s => s.letter = letter with
    | some s => setLetters word rest (s.set true o)
    | none => .error (.unknownLetter letter word)

/-- Turn a switch on, or on or off as its value says. -/
def setSwitch (s : Switch) (value : Option Text) (o : Options) : Except UsageError Options :=
  match value with
  | none => .ok (s.set true o)
  | some written =>
    match Switch.truth? written with
    | some on => .ok (s.set on o)
    | none => .error (.badSwitch s written)

/-- Give a flag its value. -/
def setValue (f : Valued) (value : Text) (o : Options) : Except UsageError Options :=
  match f with
  | .logLevel => .ok { o with logLevel := value }
  | .maxHeight =>
    match Integer.ofChars (value.map Rune.toChar) with
    | .ok n => .ok { o with maxHeight := n }
    | .error fault => .error (.badHeight value fault)

/-- Read the words of a command line onto the options of its command. -/
def readWords : List Text → Options → Except UsageError Options
  | [], o => .ok o
  | word :: rest, o =>
    if word = endOfFlags then .ok { o with args := o.args ++ rest }
    else
      match word with
      | .char '-' :: .char '-' :: flag =>
        let (name, value) := splitFlag flag
        match o.task.switches.find? fun s => s.name = name with
        | some s => do readWords rest (← setSwitch s value o)
        | none =>
          match o.task.valued.find? fun f => f.name = name with
          | none => .error (.unknownFlag name)
          | some f =>
            match value, rest with
            | some value, rest => do readWords rest (← setValue f value o)
            | none, value :: rest => do readWords rest (← setValue f value o)
            | none, [] => .error (.noValue name)
      | .char '-' :: letter :: letters => do
        readWords rest (← setLetters (letter :: letters) (letter :: letters) o)
      | word => readWords rest { o with args := o.args ++ [word] }

/-- Read a command line. -/
def ofWords (words : List Text) : Except UsageError Options :=
  let (task, rest) := Task.ofWords words
  readWords rest (ofTask task)

end Options

end Command

end LexLisp
