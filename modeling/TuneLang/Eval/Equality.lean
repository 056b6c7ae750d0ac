import TuneLang.Store

/-!
# Equality of values

Numbers, truth values, texts and tunes are equal when they are the same. Closures are equal when their parameters, bodies and
environments are, compared in this order. Two environments are compared binding by binding: the names first, then the locations,
and where these differ, what they hold. As a function's environment begins with the function itself, comparing two functions that
differ in nothing else comes back to comparing them, and never ends; the comparison is bounded and has no answer beyond its bound.

Inside a closure, a truth value and the number it counts as (`true` and 1, `false` and 0) are alike.
-/

namespace TuneLang

/-- The number a truth value counts as. -/
def Value.ofTruth (b : Bool) : Int := if b then 1 else 0

mutual

/-- Whether two values are alike as parts of a closure's body. -/
def Value.alike : Value → Value → Bool
  | .int m, .int n => m == n
  | .bool a, .bool b => a == b
  | .int m, .bool b => m == Value.ofTruth b
  | .bool a, .int n => Value.ofTruth a == n
  | .nothing, .nothing => true
  | .text s, .text t => s == t
  | .tune t, .tune u => t == u
  | .closure p b env, .closure p' b' env' => p == p' && b.alike b' && env == env'
  | _, _ => false

/-- Whether two expressions are alike: the same construct, with parts that are alike. -/
def Expr.alike : Expr → Expr → Bool
  | .lit v, .lit w => v.alike w
  | .note p d, .note p' d' => p == p' && d == d'
  | .binary op l r, .binary op' l' r' => op == op' && l.alike l' && r.alike r'
  | .logic op l r, .logic op' l' r' => op == op' && l.alike l' && r.alike r'
  | .unary op e, .unary op' e' => op == op' && e.alike e'
  | .slice t i j, .slice t' i' j' => t.alike t' && i.alike i' && j.alike j'
  | .cond c t e, .cond c' t' e' => c.alike c' && t.alike t' && e.alike e'
  | .name x, .name x' => x == x'
  | .letIn x d b, .letIn x' d' b' => x == x' && d.alike d' && b.alike b'
  | .letFun f p b i, .letFun f' p' b' i' => f == f' && p == p' && b.alike b' && i.alike i'
  | .app f a, .app f' a' => f.alike f' && a.alike a'
  | .assign x v, .assign x' v' => x == x' && v.alike v'
  | .seq a b, .seq a' b' => a.alike a' && b.alike b'
  | .display e, .display e' => e.alike e'
  | .read, .read => true
  | .write t path, .write t' path' => t.alike t' && path == path'
  | .run path, .run path' => path == path'
  | .stray v, .stray w => v.alike w
  | _, _ => false

end

/-- Whether two environments agree, where `same` compares what two locations hold. None when a comparison has no answer. -/
def Env.agree? (same : Value → Value → Option Bool) (s : Store) : Env → Env → Option Bool
  | [], [] => some true
  | (x, l) :: env, (x', l') :: env' =>
    if x = x' then
      if l = l' then Env.agree? same s env env'
      else match same (s.get l) (s.get l') with
        | some true => Env.agree? same s env env'
        | answer => answer
    else some false
  | _, _ => some false

/-- Whether two values are equal, found with at most `n` steps from a closure into its environment. -/
def Value.same? (s : Store) : Nat → Value → Value → Option Bool
  | 0, _, _ => none
  | n + 1, .closure p b env, .closure p' b' env' =>
    if p = p' && b.alike b' then Env.agree? (Value.same? s n) s env env' else some false
  | _ + 1, v, w => some (v.alike w)

/-- Whether two values can be compared: they are of one kind, and two tunes have equally many notes. -/
def Value.comparable : Value → Value → Bool
  | .int _, .int _ => true
  | .bool _, .bool _ => true
  | .nothing, .nothing => true
  | .text _, .text _ => true
  | .tune t, .tune u => t.length == u.length
  | .closure _ _ _, .closure _ _ _ => true
  | _, _ => false

end TuneLang
