import Condense.Syntax.Tree

/-!
Structural equivalence of trees: same forms and same literals, whatever the places, scopes and bindings.
-/

namespace Condense

def Literal.same : Literal → Literal → Bool
  | number x, number y => x == y || x.isNaN && y.isNaN
  | string a, string b => a == b
  | boolean a, boolean b => a == b
  | null, null | empty, empty => true
  | _, _ => false

namespace Form

variable {α : Type}

/-- Compares what two nodes of one kind have apart from their children. -/
def sameData : Form α → Form α → Bool
  | block _ _ a, block _ _ b => a == b
  | var a _, var b _ => a == b
  | function kind _ params _ isAsync isGenerator _ _, function kind' _ params' _ isAsync' isGenerator' _ _ =>
    kind == kind' && isAsync == isAsync' && isGenerator == isGenerator' && params.length == params'.length
  | classMember _ _ kind isStatic computed, classMember _ _ kind' isStatic' computed' =>
    kind == kind' && isStatic == isStatic' && computed == computed'
  | forInLoop _ _ _ isOf isAwait _, forInLoop _ _ _ isOf' isAwait' _ => isOf == isOf' && isAwait == isAwait'
  | breakStatement a, breakStatement b => a == b
  | continueStatement a, continueStatement b => a == b
  | labeled a _, labeled b _ => a == b
  | importantComment a, importantComment b => a == b
  | ccSet a _, ccSet b _ => a == b
  | ccVariable a, ccVariable b => a == b
  | lookup a _ _, lookup b _ _ => a == b
  | member _ a _, member _ b _ => a == b
  | propertyName a, propertyName b => a == b
  | bindingIdentifier a _, bindingIdentifier b _ => a == b
  | importDeclaration _ a, importDeclaration _ b => a == b
  | importSpecifier kind imported _, importSpecifier kind' imported' _ => kind == kind' && imported == imported'
  | exportDeclaration kind _ _ source nameSpace, exportDeclaration kind' _ _ source' nameSpace' =>
    kind == kind' && source == source' && nameSpace == nameSpace'
  | exportSpecifier _ a, exportSpecifier _ b => a == b
  | constant a, constant b => a.same b
  | bigInt a, bigInt b => a == b
  | regExp pattern flags, regExp pattern' flags' => pattern == pattern' && flags == flags'
  | template tag quasis _, template tag' quasis' _ => tag.isSome == tag'.isSome && quasis == quasis'
  | unary a _, unary b _ => a == b
  | update a isPrefixed _, update b isPrefixed' _ => a == b && isPrefixed == isPrefixed'
  | binary a _ _, binary b _ _ => a == b
  | call _ args isNew optional, call _ args' isNew' optional' =>
    isNew == isNew' && optional == optional' && args.length == args'.length
  | index _ _ a, index _ _ b => a == b
  | arrayLiteral a, arrayLiteral b | arrayPattern a, arrayPattern b =>
    a.length == b.length && (a.zip b).all fun (x, y) => x.isSome == y.isSome
  | property _ _ kind computed, property _ _ kind' computed' => kind == kind' && computed == computed'
  | yield _ a, yield _ b => a == b
  | replacementToken name fallback, replacementToken name' fallback' => name == name' && fallback == fallback'
  | _, _ => true

def sameShape (form other : Form α) : Bool :=
  form.ctorIdx == other.ctorIdx && form.sameData other

end Form

namespace Tree

def equivalentUpTo (t u : Tree) : Nat → NodeId → NodeId → Bool
  | 0, _, _ => false
  | depth + 1, a, b =>
    let left := t.form a
    let right := u.form b
    left.sameShape right
      && left.children.length == right.children.length
      && (left.children.zip right.children).all fun (x, y) => equivalentUpTo t u depth x y

/-- Whether the tree at `a` and the tree at `b` of another store are structurally the same. -/
def equivalent (t : Tree) (a : NodeId) (u : Tree) (b : NodeId) : Bool :=
  equivalentUpTo t u (t.size + u.size + 1) a b

end Tree

end Condense
