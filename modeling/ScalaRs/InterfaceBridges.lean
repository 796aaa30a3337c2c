import Mathlib.Data.Char
import Mathlib.Data.List.Dedup
import Mathlib.Data.List.Lex
import Mathlib.Data.Prod.Lex

/-! # Bridges for members of binary interfaces

The bridges that a class needs because of the class files of its super-types. -/
namespace ScalaRs.InterfaceBridges

abbrev Str := List Char

def accStatic : UInt16 := 0x0008
def accBridge : UInt16 := 0x0040
def accAbstract : UInt16 := 0x0400

structure Info where
  isInterface : Bool
  supers : List Str
  /-- Name, descriptor, access flags. -/
  methods : List (Str × Str × UInt16)

/-- The class files on the binary path. -/
abbrev BinaryPath := Str → Option Info

inductive BridgeKind
  | narrow (target : Str)
  | static (iface helper desc : Str)
  deriving DecidableEq

structure Bridge where
  name : Str
  desc : Str
  kind : BridgeKind
  deriving DecidableEq

def object : Str := "java/lang/Object".toList

/-- The members of `Object` that a trait may also implement. -/
def objectClash : List (Str × Str) :=
  [("toString".toList, "()Ljava/lang/String;".toList), ("hashCode".toList, "()I".toList),
    ("equals".toList, "(Ljava/lang/Object;)Z".toList)]

/-- The parameters with their parentheses, and the result. -/
def splitDesc (desc : Str) : Option (Str × Str) :=
  match desc.dropWhile (· ≠ ')') with
  | [] => none
  | c :: ret => some (desc.takeWhile (· ≠ ')') ++ [c], ret)

/-- `Lpkg/Cls;` -/
def classOf (desc : Str) : Option Str :=
  match desc with
  | 'L' :: rest => if rest.getLast? = some ';' then some rest.dropLast else none
  | _ => none

section
variable (path : BinaryPath)

/-! ## The hierarchy -/

/-- The loop of `is_sub`, with the stack from its top. -/
def isSubLoop (b : Str) (seen : List Str) : List Str → Bool
  | [] => false
  | n :: stack =>
      if n ∈ seen then isSubLoop b seen stack
      else if 512 < seen.length + 1 then isSubLoop b (n :: seen) stack
      else
        match path n with
        | none => isSubLoop b (n :: seen) stack
        | some i => if b ∈ i.supers then true else isSubLoop b (n :: seen) (i.supers.reverse ++ stack)
  termination_by stack => (513 - seen.length, stack.length)
  decreasing_by
    all_goals simp only [Prod.lex_def, List.length_cons, true_and]
    all_goals omega

/-- Is `a` a sub-type of `b`? -/
def isSub (a b : Str) : Bool :=
  if a = b ∨ b = object then true else isSubLoop path b [] [a]

/-- The loop of `closure`, which stops after 513 classes. -/
def closureLoop (seen out : List Str) : List Str → List Str
  | [] => out
  | n :: queue =>
      if 512 < out.length then out
      else if n = object ∨ n ∈ seen then closureLoop seen out queue
      else
        match path n with
        | none => closureLoop (n :: seen) out queue
        | some i => closureLoop (n :: seen) (out ++ [n]) (queue ++ i.supers)
  termination_by queue => (513 - out.length, queue.length)

/-- Every super-type of the roots that is on the path, the roots included. -/
def closure (roots : List Str) : List Str := closureLoop path [] [] roots

/-! ## Covariant results -/

/-- The index of an owner, the result, whether it is abstract. -/
abbrev Decl := ℕ × Str × Bool

/-- What one class declares, under the name and the parameters. -/
def declsOf (oi : ℕ) (owner : Str) : List ((Str × Str) × Decl) :=
  match path owner with
  | none => []
  | some info => info.methods.filterMap fun (name, desc, acc) =>
      if acc &&& (accStatic ||| accBridge) ≠ 0 then none
      else (splitDesc desc).map fun (params, ret) =>
        ((name, params), (oi, ret, decide (acc &&& accAbstract ≠ 0)))

/-- All entries of `by_sig`, in the order in which they are made. -/
def entries (owners : List Str) : List ((Str × Str) × Decl) :=
  owners.zipIdx.flatMap fun (owner, oi) => declsOf path oi owner

/-- `by_sig`: what is declared under each name and parameters. The bridges are sorted in the end, so
the order of a hash map is not kept. -/
def bySig (owners : List Str) : List ((Str × Str) × List Decl) :=
  ((entries path owners).map (·.1)).dedup.map fun key =>
    (key, ((entries path owners).filter (·.1 = key)).map (·.2))

/-- Is the owner of the declaration a sub-type of the owners of all? -/
def isMost (owners : List Str) (cands : List Decl) (oi : ℕ) : Bool :=
  cands.all fun (oj, _) => decide (oi = oj) || isSub path (owners.getD oi []) (owners.getD oj [])

/-- One candidate, with the target so far and whether it is ambiguous. -/
def targetStep (owners : List Str) (cands : List Decl) (acc : Option Str × Bool) (d : Decl) :
    Option Str × Bool :=
  if isMost path owners cands d.1 then
    match acc.1 with
    | none => (some d.2.1, acc.2)
    | some t => if t = d.2.1 then acc else (acc.1, true)
  else acc

def scanTarget (owners : List Str) (cands : List Decl) : Option Str × Bool :=
  cands.foldl (targetStep path owners cands) (none, false)

/-- The bridge from one of the results to the target. -/
def narrowBridge (have' : List (Str × Str)) (name params target tc wide : Str) : Option Bridge := do
  if wide = target then none
  let wc ← classOf wide
  if isSub path tc wc = false then none
  if (name, params ++ wide) ∈ have' then none
  some ⟨name, params ++ wide, .narrow (params ++ target)⟩

/-- The bridges of one name with its parameters. -/
def groupBridges (owners : List Str) (have' : List (Str × Str)) (name params : Str)
    (cands : List Decl) : List Bridge :=
  let rets := (cands.map (·.2.1)).dedup
  if rets.length < 2 then []
  else
    match scanTarget path owners cands with
    | (some target, false) =>
        let reachable := cands.any (fun d => d.2.1 = target ∧ d.2.2 = false) ∨
          (name, params ++ target) ∈ have'
        if reachable then
          match classOf target with
          | none => []
          | some tc => rets.filterMap (narrowBridge path have' name params target tc)
        else []
    | _ => []

def covariantBridges (owners : List Str) (have' : List (Str × Str)) : List Bridge :=
  (bySig path owners).flatMap fun ((name, params), cands) =>
    groupBridges path owners have' name params cands

/-! ## Members of `Object` -/

/-- Does the class file have this method with a body? -/
def implements (i : Info) (name desc : Str) : Bool :=
  i.methods.any fun (n, d, a) => n = name ∧ d = desc ∧ a &&& (accStatic ||| accAbstract) = 0

/-- An interface on the path with this method. -/
def isCandidate (name desc : Str) (o : Str) : Bool :=
  match path o with
  | none => false
  | some i => i.isInterface && implements i name desc

def isClassImpl (name desc : Str) (o : Str) : Bool :=
  match path o with
  | none => false
  | some i => !i.isInterface && implements i name desc

/-- One owner, with the best one so far and whether it is ambiguous. -/
def bestStep (name desc : Str) (acc : Option Str × Bool) (o : Str) : Option Str × Bool :=
  if isCandidate path name desc o then
    match acc.1 with
    | none => (some o, acc.2)
    | some b =>
        if isSub path o b then (some o, acc.2)
        else if isSub path b o then acc
        else (acc.1, true)
  else acc

def scanBest (owners : List Str) (name desc : Str) : Option Str × Bool :=
  owners.foldl (bestStep path name desc) (none, false)

def helperName (name : Str) : Str := name ++ ['$']

def helperDesc (iface params ret : Str) : Str :=
  ['(', 'L'] ++ iface ++ [';'] ++ params.tail ++ ret

def hasHelper (iface helper desc : Str) : Bool :=
  match path iface with
  | none => false
  | some i => i.methods.any fun (n, d, a) => n = helper ∧ d = desc ∧ a &&& accStatic ≠ 0

def clashForwarder (owners : List Str) (have' : List (Str × Str)) (name desc : Str) :
    Option Bridge :=
  if (name, desc) ∈ have' then none
  else if owners.any (isClassImpl path name desc) then none
  else
    match scanBest path owners name desc with
    | (some iface, false) => do
        let (params, ret) ← splitDesc desc
        let helper := helperName name
        let desc' := helperDesc iface params ret
        if hasHelper path iface helper desc' then some ⟨name, desc, .static iface helper desc'⟩
        else none
    | _ => none

def objectClashForwarders (owners : List Str) (have' : List (Str × Str)) : List Bridge :=
  objectClash.filterMap fun (name, desc) => clashForwarder path owners have' name desc

/-! ## All bridges -/

end

/-- The kind of a bridge as a list of strings, ordered as the kinds are. -/
def BridgeKind.key : BridgeKind → ℕ × List Str
  | narrow target => (0, [target])
  | static iface helper desc => (1, [iface, helper, desc])

/-- The order by name, then by descriptor, then by kind. -/
def Bridge.le (a b : Bridge) : Bool :=
  decide (toLex (a.name, toLex (a.desc, toLex a.kind.key)) ≤
    toLex (b.name, toLex (b.desc, toLex b.kind.key)))

/-- The bridges a class with these super-types needs, given what it declares. -/
def bridges (path : BinaryPath) (roots : List Str) (have' : List (Str × Str)) : List Bridge :=
  let owners := closure path roots
  if owners.isEmpty then []
  else (covariantBridges path owners have' ++ objectClashForwarders path owners have').mergeSort
    Bridge.le

end ScalaRs.InterfaceBridges
