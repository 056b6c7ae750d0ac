import TuneLang.Grammar.Level
import TuneLang.Grammar.Tree

/-!
# Frames

A source is read from left to right with a stack of frames, each a construct that was begun and waits for one of its operands, and
a focus, which says what is read next for the innermost of them. A complete operand is taken by what follows it when that asks for
no tighter a level and fits where the operand stands; otherwise the innermost construct is completed with it, and the outcome
looked at in the same way. A construct that ends with a word or bracket is completed by that alone.
-/

namespace TuneLang

/-- The leaf of a name. -/
def Tree.nameLeaf (x : String) : Tree := .leaf Terminal.name.label x

/-- The leaf of an integer. -/
def Tree.intLeaf (d : String) : Tree := .leaf Terminal.int.label d

/-- The leaf of a path. -/
def Tree.pathLeaf (p : String) : Tree := .leaf Terminal.path.label p

/-- A construct that waits for an operand. -/
inductive Frame where
  | right (sign : Sign) (left : Tree)
  | lead (l : Lead)
  | assigned (x : String)
  | test
  | consequent (test : Tree)
  | alternative (test yes : Tree)
  | recorded
  | count
  | repeated (count : Tree)
  | group
  | argument (function : Tree)
  | sliceStart (tune : Tree)
  | sliceStop (tune start : Tree)
  | definition (x : String)
  | body (x : String) (definition : Tree)
  | functionBody (f param : String)
  | functionScope (f param : String) (body : Tree)
  deriving Repr

/-- The level a frame asks for in the operand it waits for. -/
def Frame.need : Frame → Level
  | .right sign _ => sign.right
  | .lead l => l.operand
  | .assigned _ => .statement
  | .alternative _ _ => .statement
  | .recorded => .join
  | .count => .join
  | .repeated _ => .join
  | _ => .sequence

/-- The construct of a frame that its operand completes, with its level. None for a frame that ends with a word or bracket. -/
def Frame.complete? : Frame → Tree → Option (Tree × Level)
  | .right sign left, t => some (.node sign.rule [left, t], sign.level)
  | .lead l, t => some (.node l.rule [t], l.level)
  | .assigned x, t => some (.node .assign [Tree.nameLeaf x, t], .statement)
  | .alternative c y, t => some (.node .cond [c, y, t], .statement)
  | .repeated c, t => some (.node .times [c, t], .performance)
  | _, _ => none

/-- What is read next: an operand; what follows a name or a complete operand; or one of the fixed parts of a construct. -/
inductive Focus where
  | operand
  | named (x : String)
  | complete (t : Tree) (level : Level)
  | writePath (tune : Tree)
  | runPath
  | letName
  | letEqual (x : String)
  | funName
  | funOpen (f : String)
  | funParam (f : String)
  | funClose (f param : String)
  | funEqual (f param : String)
  | noteDuration (x : String)
  | noteClose (x duration : String)
  deriving Repr

/-- The constructs that were begun, the innermost first, and what is read next. -/
structure Reading where
  frames : List Frame
  focus : Focus
  deriving Repr

/-- The reading of a source before its first token. -/
def Reading.start : Reading := ⟨[], .operand⟩

/-- The level that is asked for in the operand that is read. -/
def Reading.need : List Frame → Level
  | [] => .sequence
  | f :: _ => f.need

/-- What can follow a complete operand and go on from it. -/
inductive Follow where
  | sign (s : Sign)
  | slice
  | apply
  deriving DecidableEq, Repr

/-- The continuation that a terminal begins. -/
def Follow.ofTerminal? : Terminal → Option Follow
  | .lsqb => some .slice
  | .lpar => some .apply
  | t => (Sign.all.find? (fun s => s.terminal == t)).map .sign

/-- The level a continuation asks for in the operand before it. -/
def Follow.left : Follow → Level
  | .sign s => s.left
  | .slice => .slice
  | .apply => .atom

/-- The level of what a continuation makes. -/
def Follow.level : Follow → Level
  | .sign s => s.level
  | .slice => .slice
  | .apply => .atom

/-- The frame of a continuation after its operand. -/
def Follow.frame : Follow → Tree → Frame
  | .sign s, t => .right s t
  | .slice, t => .sliceStart t
  | .apply, t => .argument t

/-- Go on from a complete operand with a continuation, after the constructs that end before it are completed. -/
def Follow.shift? (k : Follow) : List Frame → Tree → Level → Option Reading
  | [], t, level => if k.left ≤ level then some ⟨[k.frame t], .operand⟩ else none
  | f :: fs, t, level =>
    if k.left ≤ level && f.need ≤ k.level then some ⟨k.frame t :: f :: fs, .operand⟩
    else match f.complete? t with
      | some (t, level) => k.shift? fs t level
      | none => none

/-- End a part of a frame with a word or bracket. `fs` are the frames around it. -/
def Frame.close? (fs : List Frame) : Frame → Terminal → Tree → Option Reading
  | .test, .thenWord, t => some ⟨.consequent t :: fs, .operand⟩
  | .consequent c, .elseWord, t => some ⟨.alternative c t :: fs, .operand⟩
  | .recorded, .colon, t => some ⟨fs, .writePath t⟩
  | .count, .colon, t => some ⟨.repeated t :: fs, .operand⟩
  | .group, .rpar, t => some ⟨fs, .complete t .atom⟩
  | .argument f, .rpar, t => some ⟨fs, .complete (.node .app [f, t]) .atom⟩
  | .sliceStart u, .colon, t => some ⟨.sliceStop u t :: fs, .operand⟩
  | .sliceStop u i, .rsqb, t => some ⟨fs, .complete (.node .slice [u, i, t]) .slice⟩
  | .definition x, .inWord, t => some ⟨.body x t :: fs, .operand⟩
  | .body x d, .endWord, t => some ⟨fs, .complete (.node .letIn [Tree.nameLeaf x, d, t]) .atom⟩
  | .functionBody f p, .inWord, t => some ⟨.functionScope f p t :: fs, .operand⟩
  | .functionScope f p b, .endWord, t =>
    some ⟨fs, .complete (.node .letFun [Tree.nameLeaf f, Tree.nameLeaf p, b, t]) .atom⟩
  | _, _, _ => none

/-- End a complete operand with a word or bracket, after the constructs that end before it are completed. -/
def Reading.close? (terminal : Terminal) : List Frame → Tree → Option Reading
  | [], _ => none
  | f :: fs, t =>
    match f.close? fs terminal t with
    | some r => some r
    | none =>
      match f.complete? t with
      | some (t, _) => Reading.close? terminal fs t
      | none => none

/-- The tree of a source that ends after a complete operand. -/
def Reading.finish? : List Frame → Tree → Option Tree
  | [], t => some t
  | f :: fs, t =>
    match f.complete? t with
    | some (t, _) => Reading.finish? fs t
    | none => none

/-- Go on from a complete operand with a token. -/
def Reading.follow? (frames : List Frame) (t : Tree) (level : Level) (terminal : Terminal) : Option Reading :=
  match Follow.ofTerminal? terminal with
  | some k => k.shift? frames t level
  | none => Reading.close? terminal frames t

/-- The level of the operand that a terminal begins, if it begins one. -/
def Terminal.operandLevel? : Terminal → Option Level
  | .ifWord | .showWord => some .statement
  | .bang => some .negation
  | .writeWord | .runWord | .repeatWord | .reverseWord => some .performance
  | .minus => some .minus
  | .name | .int | .lpar | .letWord | .letfunWord => some .atom
  | _ => none

/-- Begin an operand with a token. -/
def Reading.begin? (frames : List Frame) (token : Token) : Option Reading :=
  match token.terminal with
  | .name => some ⟨frames, .named token.text⟩
  | .int => some ⟨frames, .complete (.node .int [Tree.intLeaf token.text]) .atom⟩
  | .lpar => some ⟨.group :: frames, .operand⟩
  | .minus => some ⟨.lead .neg :: frames, .operand⟩
  | .bang => some ⟨.lead .not :: frames, .operand⟩
  | .ifWord => some ⟨.test :: frames, .operand⟩
  | .showWord => some ⟨.lead .display :: frames, .operand⟩
  | .letWord => some ⟨frames, .letName⟩
  | .letfunWord => some ⟨frames, .funName⟩
  | .writeWord => some ⟨.recorded :: frames, .operand⟩
  | .runWord => some ⟨frames, .runPath⟩
  | .repeatWord => some ⟨.count :: frames, .operand⟩
  | .reverseWord => some ⟨.lead .reverse :: frames, .operand⟩
  | _ => none

/-- The tree of a name that stands as an operand. -/
def Tree.ofName (x : String) : Tree := .node .name [Tree.nameLeaf x]

/-- Go on from a name with a token: an assignment where a statement can stand, the duration of a note right behind a parenthesis,
or what follows any operand. -/
def Reading.followName? (frames : List Frame) (x : String) (terminal : Terminal) : Option Reading :=
  match terminal, frames with
  | .assign, frames => if Reading.need frames ≤ .statement then some ⟨.assigned x :: frames, .operand⟩ else none
  | .comma, .group :: frames => some ⟨frames, .noteDuration x⟩
  | t, frames => Reading.follow? frames (Tree.ofName x) .atom t

/-- Read a token. None when it cannot stand here. -/
def Reading.feed? (r : Reading) (token : Token) : Option Reading :=
  match r.focus, token.terminal with
  | .operand, t =>
    match t.operandLevel? with
    | some level => if Reading.need r.frames ≤ level then Reading.begin? r.frames token else none
    | none => none
  | .named x, t => Reading.followName? r.frames x t
  | .complete e level, t => Reading.follow? r.frames e level t
  | .writePath e, .path => some ⟨r.frames, .complete (.node .write [e, Tree.pathLeaf token.text]) .performance⟩
  | .runPath, .path => some ⟨r.frames, .complete (.node .run [Tree.pathLeaf token.text]) .performance⟩
  | .letName, .name => some ⟨r.frames, .letEqual token.text⟩
  | .letEqual x, .equal => some ⟨.definition x :: r.frames, .operand⟩
  | .funName, .name => some ⟨r.frames, .funOpen token.text⟩
  | .funOpen f, .lpar => some ⟨r.frames, .funParam f⟩
  | .funParam f, .name => some ⟨r.frames, .funClose f token.text⟩
  | .funClose f p, .rpar => some ⟨r.frames, .funEqual f p⟩
  | .funEqual f p, .equal => some ⟨.functionBody f p :: r.frames, .operand⟩
  | .noteDuration x, .int => some ⟨r.frames, .noteClose x token.text⟩
  | .noteClose x d, .rpar => some ⟨r.frames, .complete (.node .note [Tree.nameLeaf x, Tree.intLeaf d]) .atom⟩
  | _, _ => none

/-- The tree of a source that ends here. -/
def Reading.end? (r : Reading) : Option Tree :=
  match r.focus with
  | .named x => Reading.finish? r.frames (Tree.ofName x)
  | .complete t _ => Reading.finish? r.frames t
  | _ => none

/-! ## The terminals that are looked for -/

/-- The words and brackets that can end an operand. -/
def Terminal.closing : List Terminal := [.colon, .elseWord, .endWord, .inWord, .rpar, .rsqb, .semicolon, .thenWord]

/-- The signs of comparisons and connectives. -/
def Terminal.relating : List Terminal := [.less, .more, .or, .and, .eq, .ne, .le, .ge]

/-- The signs of arithmetic and of joining tunes. -/
def Terminal.arithmetic : List Terminal := [.plus, .minus, .star, .slash, .bar]

/-- The terminals an operand can begin with. -/
def Terminal.beginning : List Terminal :=
  [.bang, .ifWord, .int, .letWord, .letfunWord, .lpar, .minus, .name, .repeatWord, .reverseWord, .runWord, .showWord, .writeWord]

/-- The terminals looked for after an operand of the given level: brackets only after what they can continue. -/
def Level.followers (level : Level) : List Terminal :=
  Terminal.closing ++ Terminal.relating ++ (if Level.slice ≤ level then Terminal.arithmetic ++ [.lsqb] else []) ++
    (if Level.atom ≤ level then [.lpar] else [])

/-- The terminals that are looked for next. -/
def Reading.allowed (r : Reading) : List Terminal :=
  match r.focus with
  | .operand =>
    Terminal.beginning.filter (fun t => (t.operandLevel?.map (fun level => decide (Reading.need r.frames ≤ level))).getD false)
  | .named _ =>
    match r.frames with
    | .group :: _ =>
      [.comma, .lpar, .rpar, .lsqb, .semicolon, .assign] ++ Terminal.relating ++ Terminal.arithmetic
    | frames =>
      (if Reading.need frames ≤ .statement then [.assign] else []) ++ Level.followers .atom
  | .complete _ level => level.followers
  | .writePath _ | .runPath => [.path]
  | .letName | .funName | .funParam _ => [.name]
  | .letEqual _ | .funEqual _ _ => [.equal]
  | .funOpen _ => [.lpar]
  | .funClose _ _ | .noteClose _ _ => [.rpar]
  | .noteDuration _ => [.int]

end TuneLang
