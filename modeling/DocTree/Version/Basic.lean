import DocTree.Text.Basic
/-!
Version numbers and their order. A version is a release, a list of numbers, with marks for what
comes before it (pre-releases and development builds) and after it (post-releases).
-/

namespace DocTree

inductive Stage
  | alpha
  | beta
  | candidate
  deriving DecidableEq, Repr

def Stage.rank : Stage → Nat
  | .alpha => 0
  | .beta => 1
  | .candidate => 2

structure Version where
  epoch : Nat
  release : List Nat
  pre : Option (Stage × Nat)
  post : Option Nat
  dev : Option Nat
  deriving DecidableEq, Repr

namespace Version

def final (release : List Nat) : Version := ⟨0, release, none, none, none⟩

/-- Releases are compared part by part; the shorter one goes on with zeros. -/
def compareRelease : List Nat → List Nat → Ordering
  | [], [] => .eq
  | [], b :: bs => (compare 0 b).then (compareRelease [] bs)
  | a :: as, [] => (compare a 0).then (compareRelease as [])
  | a :: as, b :: bs => (compare a b).then (compareRelease as bs)

/-- Where a version stands among those with its release: a development build of the release comes
first, then the pre-releases, then the release and its post-releases; of each of these the
development builds come before it. -/
def rank (v : Version) : List Nat :=
  let pre := match v.pre with
    | some (stage, n) => [stage.rank + 1, n]
    | none => if v.post.isNone && v.dev.isSome then [0, 0] else [4, 0]
  let post := match v.post with
    | some n => [n + 1]
    | none => [0]
  let dev := match v.dev with
    | some n => [0, n]
    | none => [1, 0]
  pre ++ post ++ dev

protected def compare (v w : Version) : Ordering :=
  (compare v.epoch w.epoch).then
    ((compareRelease v.release w.release).then (compareRelease v.rank w.rank))

def releaseText (release : List Nat) : Text := Text.joinWith "." (release.map Text.ofNat)

end Version

end DocTree
