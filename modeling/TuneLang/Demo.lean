import TuneLang.Session

/-!
# Demonstrations

Two demonstrations of the language, each followed by a check of its examples. The first runs expressions and checks what
expressions evaluate to; the second runs sources and checks which expressions sources are read as, showing each on the way. A check
ends with a report: a mark for each example, and whether all of them hold.
-/

namespace TuneLang

/-- What a demonstration leaves: the failure that cut it short if there was one, the report of its check, and the world. -/
structure Demo.Outcome where
  failure : Option ProgramFailure
  report : String
  world : World

/-- The report of a check: a mark for each example, a line, how many examples there were, and the verdict. -/
def Demo.reportOf (held : List Bool) : String :=
  let marks := String.ofList (held.map (fun b => if b then '.' else 'F'))
  let line := String.ofList (List.replicate 70 '-')
  let total := held.length
  let failed := held.count false
  let verdict := if failed = 0 then "OK" else s!"FAILED (failures={failed})"
  s!"{marks}\n{line}\nRan {total} tests\n\n{verdict}\n"

/-! ## Expressions -/

/-- A number as an expression. -/
def Demo.int (n : Int) : Expr := .lit (.int n)

/-- The two notes that most examples are about, with their durations. -/
def Demo.pair (a b : Int) : Expr := .binary .join (.note "A" a) (.note "B" b)

/-- Three notes joined from the right. -/
def Demo.triple : Expr := .binary .join (.note "A" 1) (.binary .join (.note "B" 2) (.note "C" 3))

/-- The expressions that are run, and whether the result is recorded. -/
def Demo.expressions : List (Expr × Bool) :=
  [(.note "A" 1, false),
    (Demo.pair 1 2, false),
    (Demo.triple, false),
    (.letIn "x" (Demo.pair 1 2) (.slice (.name "x") (Demo.int 1) (Demo.int 2)), false),
    (.binary .add (Demo.pair 1 2) (Demo.int 2), false),
    (.binary .sub (Demo.pair 1 2) (Demo.int 2), false),
    (.binary .mul (Demo.pair 10 10) (Demo.int 2), false),
    (.binary .eq Demo.triple Demo.triple, false),
    (.binary .ne Demo.triple Demo.triple, false),
    (.binary .join (.note "A" 1) (.binary .join (.note "B" 2) (.binary .join (.note "C" 3) (.note "D" 4))), true)]

/-- What an example says of an expression: it evaluates to a value, or to none. -/
inductive Demo.Example where
  | gives (e : Expr) (v : Value)
  | fails (e : Expr)

/-- Whether an example holds. -/
def Demo.Example.holds (depth : Nat) : Demo.Example → Bool
  | .gives e v =>
    match e.evalClosed depth {} with
    | .ok w _ => w == v
    | .error _ _ => false
  | .fails e =>
    match e.evalClosed depth {} with
    | .ok _ _ => false
    | .error _ _ => true

/-- The examples of evaluation. -/
def Demo.evaluations : List (List Demo.Example) :=
  [[.gives (.note "A" 1) (.tune [⟨"A", 1⟩])],
    [.gives (Demo.pair 1 2) (.tune [⟨"A", 1⟩, ⟨"B", 2⟩])],
    [.gives Demo.triple (.tune [⟨"A", 1⟩, ⟨"B", 2⟩, ⟨"C", 3⟩])],
    [.gives (.binary .add (.note "A" 1) (Demo.int 2)) (.tune [⟨"B", 1⟩])],
    [.gives (.binary .sub (.note "A" 1) (Demo.int 2)) (.tune [⟨"G", 1⟩])],
    [.gives (.binary .mul (.note "A" 2) (Demo.int 2)) (.tune [⟨"A", 4⟩])],
    [.fails (.binary .mul (.note "A" 2) (.unary .neg (Demo.int 2)))],
    [.gives (.binary .mul (Demo.pair 2 4) (Demo.int 2)) (.tune [⟨"A", 4⟩, ⟨"B", 8⟩])],
    [.fails (.binary .mul (Demo.pair 2 4) (.unary .neg (Demo.int 2)))],
    [.gives (.binary .eq (.note "A" 1) (.note "A" 1)) (.bool true)],
    [.gives (.binary .eq (.note "A" 1) (.note "B" 2)) (.bool false)],
    [.gives (.binary .ne (.note "A" 1) (.note "A" 1)) (.bool false)],
    [.gives (.binary .ne (.note "A" 1) (.note "B" 2)) (.bool true)],
    [.gives (.binary .eq (Demo.pair 1 2) (Demo.pair 1 2)) (.bool true)],
    [.gives (.binary .eq (Demo.pair 1 2) (.binary .join (.note "C" 1) (.note "D" 2))) (.bool false)],
    [.gives (.binary .ne (Demo.pair 1 2) (Demo.pair 1 2)) (.bool false)],
    [.gives (.binary .ne (Demo.pair 1 2) (.binary .join (.note "C" 1) (.note "D" 2))) (.bool true)],
    [.gives (.slice (.note "A" 1) (Demo.int 1) (Demo.int 2)) (.tune [])],
    [.gives (.slice (Demo.pair 1 2) (Demo.int 1) (Demo.int 2)) (.tune [⟨"B", 2⟩])],
    [.gives (.binary .ge (Demo.int 42) (Demo.int 0)) (.bool true),
      .gives (.binary .ge (Demo.int 42) (Demo.int 42)) (.bool true),
      .gives (.binary .ge (Demo.int 0) (Demo.int 42)) (.bool false)],
    [.gives (.binary .le (Demo.int 42) (Demo.int 0)) (.bool false),
      .gives (.binary .le (Demo.int 42) (Demo.int 42)) (.bool true),
      .gives (.binary .le (Demo.int 0) (Demo.int 42)) (.bool true)],
    [.gives (.binary .ne (Demo.int 42) (Demo.int 0)) (.bool true),
      .gives (.binary .ne (Demo.int 42) (Demo.int 42)) (.bool false)],
    [.gives (.binary .times (Demo.int 1) (.note "A" 1)) (.tune [⟨"A", 1⟩]),
      .gives (.binary .times (Demo.int 3) (.note "A" 1)) (.tune [⟨"A", 1⟩, ⟨"A", 1⟩, ⟨"A", 1⟩]),
      .gives (.binary .times (Demo.int 2) (Demo.pair 1 2)) (.tune [⟨"A", 1⟩, ⟨"B", 2⟩, ⟨"A", 1⟩, ⟨"B", 2⟩])],
    [.gives (.binary .div (Demo.pair 1 2) (Demo.int 10)) (.tune [⟨"A", 1⟩, ⟨"B", 1⟩]),
      .gives (.binary .div (Demo.pair 10 20) (Demo.int 2)) (.tune [⟨"A", 5⟩, ⟨"B", 10⟩])]]

/-- Run expressions one after another until one is cut short. -/
def Demo.runAll (depth : Nat) : List (Expr × Bool) → World → Option RunFailure × World
  | [], w => (none, w)
  | (e, record) :: es, w =>
    match Program.run depth e true record w with
    | (none, w) => Demo.runAll depth es w
    | (some f, w) => (some f, w)

/-- The demonstration of expressions. -/
def Demo.showExpressions (depth : Nat) (w : World) : Demo.Outcome :=
  match Demo.runAll depth Demo.expressions w with
  | (some f, w) => ⟨some (.run f), "", w⟩
  | (none, w) => ⟨none, Demo.reportOf (Demo.evaluations.map (fun examples => examples.all (Demo.Example.holds depth))), w⟩

/-! ## Sources -/

/-- The sources that are run. -/
def Demo.sources : List String :=
  ["30 + 12", "(A, 1) | (B, 2)", "30 / 10", "true", "((A, 5) | (B, 2))[1:2]",
    "letfun getSlice (tune) = tune[1:2] in getSlice(((A, 1) | (B, 2) | (C, 3))) end",
    "let t1 = (A, 1) in letfun f(t2) = t1 | t2 in f((B, 2)) end end"]

/-- The examples of reading: a source and its expression. -/
def Demo.readings : List (String × Expr) :=
  [("(A, 1)", .note "A" 1),
    ("(A, 1) | (B, 2)", Demo.pair 1 2),
    ("(A, 1) | (B, 2) | (C, 3)", Demo.triple),
    ("(A, 1) + 2", .binary .add (.note "A" 1) (Demo.int 2)),
    ("(A, 1) - 2", .binary .sub (.note "A" 1) (Demo.int 2)),
    ("(A, 1) * 2", .binary .mul (.note "A" 1) (Demo.int 2)),
    ("(A, 1) * -2", .binary .mul (.note "A" 1) (.unary .neg (Demo.int 2))),
    ("(((A, 2) | (B, 4)) * 2)", .binary .mul (Demo.pair 2 4) (Demo.int 2)),
    ("(((A, 2) | (B, 4)) * -2)", .binary .mul (Demo.pair 2 4) (.unary .neg (Demo.int 2))),
    ("(A, 1) == (A, 1)", .binary .eq (.note "A" 1) (.note "A" 1)),
    ("(A, 1) != (A, 1)", .binary .ne (.note "A" 1) (.note "A" 1)),
    ("((A, 1) | (B, 2)) == ((A, 1) | (B, 2))", .binary .eq (Demo.pair 1 2) (Demo.pair 1 2)),
    ("((A, 1) | (B, 2)) != ((A, 1) | (B, 2))", .binary .ne (Demo.pair 1 2) (Demo.pair 1 2)),
    ("(A, 1)[1:2]", .slice (.note "A" 1) (Demo.int 1) (Demo.int 2)),
    ("((A, 1) | (B, 2))[1:2]", .slice (Demo.pair 1 2) (Demo.int 1) (Demo.int 2)),
    ("letfun getSlice (tune) = tune[1:2] in getSlice(((A, 1) | (B, 2) | (C, 3))) end",
      .letFun "getSlice" "tune" (.slice (.name "tune") (Demo.int 1) (Demo.int 2)) (.app (.name "getSlice") Demo.triple)),
    ("let t1 = (A, 1) in letfun f(t2) = t1 | t2 in f((B, 2)) end end",
      .letIn "t1" (.note "A" 1)
        (.letFun "f" "t2" (.binary .join (.name "t1") (.name "t2")) (.app (.name "f") (.note "B" 2)))),
    ("let t1 = (A, 1) | (B, 2) in show t1 end", .letIn "t1" (Demo.pair 1 2) (.display (.name "t1"))),
    ("let t1 = (A, 1) | (B, 2) in write t1 : tune.mid end", .letIn "t1" (Demo.pair 1 2) (.write (.name "t1") "tune.mid")),
    ("run tune.mid", .run "tune.mid"),
    ("if write (A, 1) | (B, 2) : tune.mid then run tune.mid else false",
      .cond (.write (Demo.pair 1 2) "tune.mid") (.run "tune.mid") (.lit (.bool false))),
    ("write ((A, 1) | (B, 2))[1:2] : tune.mid", .write (.slice (Demo.pair 1 2) (Demo.int 1) (Demo.int 2)) "tune.mid"),
    ("repeat 5 : (A, 1)", .binary .times (Demo.int 5) (.note "A" 1)),
    ("let a = (A, 1) in repeat 5 : a end", .letIn "a" (.note "A" 1) (.binary .times (Demo.int 5) (.name "a")))]

/-- Run sources one after another until one is cut short. -/
def Demo.performAll (depth : Nat) : List String → World → Option ProgramFailure × World
  | [], w => (none, w)
  | s :: ss, w =>
    match Program.perform depth s w with
    | (none, w) => Demo.performAll depth ss w
    | (some f, w) => (some f, w)

/-- Show sources one after another, and whether each was read as its expression. -/
def Demo.examineAll : List (String × Expr) → World → List Bool × World
  | [], w => ([], w)
  | (s, e) :: rest, w =>
    match Program.examine s w with
    | (.ok read, w) =>
      match Demo.examineAll rest w with
      | (held, w) => (decide (read = some e) :: held, w)
    | (.error _, w) =>
      match Demo.examineAll rest w with
      | (held, w) => (false :: held, w)

/-- The demonstration of sources. -/
def Demo.showSources (depth : Nat) (w : World) : Demo.Outcome :=
  match Demo.performAll depth Demo.sources w with
  | (some f, w) => ⟨some f, "", w⟩
  | (none, w) =>
    match Demo.examineAll Demo.readings w with
    | (held, w) => ⟨none, Demo.reportOf held, w⟩

end TuneLang
