import ScalaRs.PickleFormat
import ScalaRs.Utf8Lossy
import Mathlib.Data.Int.Notation

/-! # Writing a pickle

Numbers and the frame as the pickler writes them, and the body of every kind of
entry, field by field in the order of the format. -/
namespace ScalaRs.Pickling

theorem toNat_shift_seven (x : UInt64) : (x >>> 7).toNat = x.toNat / 128 := by
  rw [UInt64.toNat_shiftRight, Nat.shiftRight_eq_div_pow]
  rfl

theorem shift_seven_lt {x : UInt64} (h : x >>> 7 ≠ 0) : (x >>> 7).toNat < x.toNat := by
  have hpos : (x >>> 7).toNat ≠ 0 := fun h0 => h (UInt64.toNat_inj.mp h0)
  rw [toNat_shift_seven] at hpos ⊢
  omega

/-- `prefix` of `write_long_nat_to`: every digit but the last. -/
def writeDigitsTo (out : List UInt8) (x : UInt64) : List UInt8 :=
  let y := x >>> 7
  (if _h : y ≠ 0 then writeDigitsTo out y else out) ++ [((x &&& 0x7f) ||| 0x80).toUInt8]
termination_by x.toNat
decreasing_by exact shift_seven_lt _h

def writeLongNatTo (out : List UInt8) (x : UInt64) : List UInt8 :=
  let y := x >>> 7
  (if y ≠ 0 then writeDigitsTo out y else out) ++ [(x &&& 0x7f).toUInt8]

def writeNatTo (out : List UInt8) (x : UInt32) : List UInt8 := writeLongNatTo out x.toUInt64

/-- An `i64`, big-endian. The shifts by `8` and by `7` are divisions, rounding down. -/
def writeLongSigned256 (out : List UInt8) (x : ℤ) : List UInt8 :=
  let y := x / 256
  let z := x % 256
  (if -y ≠ z / 128 then writeLongSigned256 out y else out) ++ [UInt8.ofNat z.toNat]
termination_by x.natAbs
decreasing_by omega

/-! ## The bodies of entries -/

def refBytes (i : Idx) : List UInt8 := writeNatTo [] i

def refsBytes (is : List Idx) : List UInt8 := is.flatMap refBytes

def countBytes {α : Type} (xs : List α) : List UInt8 := writeNatTo [] (UInt32.ofNat xs.length)

def optRefBytes (i : Option Idx) : List UInt8 := refsBytes i.toList

def SymInfo.body (i : SymInfo) : List UInt8 :=
  refBytes i.name ++ refBytes i.owner ++ writeLongNatTo [] i.flags ++ optRefBytes i.privateWithin
    ++ refBytes i.info

def AnnotInfo.body (a : AnnotInfo) : List UInt8 :=
  refBytes a.tpe ++ refsBytes a.args ++ a.assocs.flatMap fun (name, arg) =>
    refBytes name ++ refBytes arg

def Constant.tag : Constant → EntryTag
  | Unit => .LITERALunit
  | Boolean _ => .LITERALboolean
  | Byte _ => .LITERALbyte
  | Short _ => .LITERALshort
  | Char _ => .LITERALchar
  | Int _ => .LITERALint
  | Long _ => .LITERALlong
  | Float _ => .LITERALfloat
  | Double _ => .LITERALdouble
  | Str _ => .LITERALstring
  | Null => .LITERALnull
  | Class _ => .LITERALclass
  | Enum _ => .LITERALenum
  | Symbol _ => .LITERALsymbol

def Constant.body : Constant → List UInt8
  | Unit | Null => []
  | Boolean b => writeLongSigned256 [] (if b then 1 else 0)
  | Byte n => writeLongSigned256 [] n.toInt
  | Short n => writeLongSigned256 [] n.toInt
  | Char c => writeLongSigned256 [] c.toNat
  | Int n => writeLongSigned256 [] n.toInt
  | Long n => writeLongSigned256 [] n.toInt
  | Float bits => writeLongSigned256 [] bits.toNat
  | Double bits => writeLongSigned256 [] bits.toInt
  | Str i | Class i | Enum i | Symbol i => refBytes i

def Tree.tag : Tree → TreeTag
  | Empty => .EMPTYtree
  | PackageDef .. => .PACKAGEtree
  | ClassDef .. => .CLASStree
  | ModuleDef .. => .MODULEtree
  | ValDef .. => .VALDEFtree
  | DefDef .. => .DEFDEFtree
  | TypeDef .. => .TYPEDEFtree
  | LabelDef .. => .LABELtree
  | Import .. => .IMPORTtree
  | DocDef .. => .DOCDEFtree
  | Template .. => .TEMPLATEtree
  | Block .. => .BLOCKtree
  | CaseDef .. => .CASEtree
  | Alternative .. => .ALTERNATIVEtree
  | Star .. => .STARtree
  | Bind .. => .BINDtree
  | UnApply .. => .UNAPPLYtree
  | ArrayValue .. => .ARRAYVALUEtree
  | Function .. => .FUNCTIONtree
  | Assign .. => .ASSIGNtree
  | If .. => .IFtree
  | Match .. => .MATCHtree
  | Return .. => .RETURNtree
  | Try .. => .TREtree
  | Throw .. => .THROWtree
  | New .. => .NEWtree
  | Typed .. => .TYPEDtree
  | TypeApply .. => .TYPEAPPLYtree
  | Apply .. => .APPLYtree
  | ApplyDynamic .. => .APPLYDYNAMICtree
  | Super .. => .SUPERtree
  | This .. => .THIStree
  | Select .. => .SELECTtree
  | Ident .. => .IDENTtree
  | Literal .. => .LITERALtree
  | TypeTree => .TYPEtree
  | Annotated .. => .ANNOTATEDtree
  | SingletonTypeTree .. => .SINGLETONTYPEtree
  | SelectFromTypeTree .. => .SELECTFROMTYPEtree
  | CompoundTypeTree .. => .COMPOUNDTYPEtree
  | AppliedTypeTree .. => .APPLIEDTYPEtree
  | TypeBoundsTree .. => .TYPEBOUNDStree
  | ExistentialTypeTree .. => .EXISTENTIALTYPEtree

def Tree.body : Tree → List UInt8
  | Empty | TypeTree => []
  | PackageDef sym mods name pid stats => refsBytes [sym, mods, name, pid] ++ refsBytes stats
  | ClassDef sym mods name template tparams =>
    refsBytes [sym, mods, name, template] ++ refsBytes tparams
  | ModuleDef sym mods name template => refsBytes [sym, mods, name, template]
  | ValDef sym mods name tpt rhs => refsBytes [sym, mods, name, tpt, rhs]
  | DefDef sym mods name tparams vparamss tpt rhs =>
    refsBytes [sym, mods, name] ++ countBytes tparams ++ refsBytes tparams
      ++ countBytes vparamss ++ vparamss.flatMap (fun ps => countBytes ps ++ refsBytes ps)
      ++ refsBytes [tpt, rhs]
  | TypeDef sym mods name rhs tparams => refsBytes [sym, mods, name, rhs] ++ refsBytes tparams
  | LabelDef sym name rhs params => refsBytes [sym, name, rhs] ++ refsBytes params
  | Import sym expr selectors =>
    refsBytes [sym, expr] ++ selectors.flatMap fun s => refsBytes [s.fromRef, s.toRef]
  | DocDef comment definition => refsBytes [comment, definition]
  | Template sym parents self body =>
    refBytes sym ++ countBytes parents ++ refsBytes parents ++ refBytes self ++ refsBytes body
  | Block expr stats => refBytes expr ++ refsBytes stats
  | CaseDef pat guard body => refsBytes [pat, guard, body]
  | Alternative trees => refsBytes trees
  | Bind sym name body => refsBytes [sym, name, body]
  | UnApply f xs | TypeApply f xs | Apply f xs | ArrayValue f xs | Match f xs
  | AppliedTypeTree f xs | ExistentialTypeTree f xs => refBytes f ++ refsBytes xs
  | Function f g xs | Try f g xs | ApplyDynamic f g xs => refsBytes [f, g] ++ refsBytes xs
  | If i j k | Super i j k | Select i j k => refsBytes [i, j, k]
  | Assign i j | Return i j | Typed i j | This i j | Ident i j | Annotated i j
  | SelectFromTypeTree i j | TypeBoundsTree i j => refsBytes [i, j]
  | Star i | Throw i | New i | Literal i | SingletonTypeTree i | CompoundTypeTree i => refBytes i

def Entry.tag : Entry → EntryTag
  | TermName _ => .TERMname
  | TypeName _ => .TYPEname
  | NoneSym => .NONEsym
  | TypeSym _ => .TYPEsym
  | AliasSym _ => .ALIASsym
  | ClassSym .. => .CLASSsym
  | ModuleSym .. => .MODULEsym
  | ValSym .. => .VALsym
  | ExtRef .. => .EXTref
  | ExtModClassRef .. => .EXTMODCLASSref
  | NoTpe => .NOtpe
  | NoPrefixTpe => .NOPREFIXtpe
  | ThisTpe _ => .THIStpe
  | SingleTpe .. => .SINGLEtpe
  | SuperTpe .. => .SUPERtpe
  | ConstantTpe _ => .CONSTANTtpe
  | TypeRefTpe .. => .TYPEREFtpe
  | TypeBoundsTpe .. => .TYPEBOUNDStpe
  | RefinedTpe .. => .REFINEDtpe
  | ClassInfoTpe .. => .CLASSINFOtpe
  | MethodTpe .. => .METHODtpe
  | ImplicitMethodTpe .. => .IMPLICITMETHODtpe
  | PolyTpe .. => .POLYtpe
  | ExistentialTpe .. => .EXISTENTIALtpe
  | AnnotatedTpe .. => .ANNOTATEDtpe
  | DeBruijnIndexTpe .. => .DEBRUIJNINDEXtpe
  | Literal c => c.tag
  | SymAnnot .. => .SYMANNOT
  | AnnotInfo _ => .ANNOTINFO
  | AnnotArgArray _ => .ANNOTARGARRAY
  | Children .. => .CHILDREN
  | Tree .. => .TREE
  | Modifiers .. => .MODIFIERS

def Entry.body : Entry → List UInt8
  | TermName s | TypeName s => Utf8Lossy.utf8Bytes s
  | NoneSym | NoTpe | NoPrefixTpe => []
  | TypeSym info | AliasSym info => info.body
  | ClassSym info i | ModuleSym info i | ValSym info i => info.body ++ optRefBytes i
  | ExtRef name owner | ExtModClassRef name owner => refBytes name ++ optRefBytes owner
  | ThisTpe i | ConstantTpe i => refBytes i
  | SingleTpe i j | SuperTpe i j | TypeBoundsTpe i j => refsBytes [i, j]
  | TypeRefTpe pre sym args => refsBytes [pre, sym] ++ refsBytes args
  | RefinedTpe i xs | ClassInfoTpe i xs | MethodTpe i xs | ImplicitMethodTpe i xs | PolyTpe i xs
  | ExistentialTpe i xs | AnnotatedTpe i xs | Children i xs => refBytes i ++ refsBytes xs
  | DeBruijnIndexTpe level index => writeNatTo [] level ++ writeNatTo [] index
  | Literal c => c.body
  | SymAnnot sym annot => refBytes sym ++ annot.body
  | AnnotInfo annot => annot.body
  | AnnotArgArray args => refsBytes args
  | Tree tpe tree => writeNatTo [] tree.tag.code.toUInt32 ++ optRefBytes tpe ++ tree.body
  | Modifiers flags privateWithin =>
    writeNatTo [] (flags >>> 32).toUInt32 ++ writeNatTo [] flags.toUInt32 ++ refBytes privateWithin

/-! ## The frame -/

/-- `write_entry` of the pickler's buffer. -/
def writeEntry (buf : List UInt8) (tag : UInt8) (body : List UInt8) : List UInt8 :=
  writeNatTo (writeNatTo buf tag.toUInt32) (UInt32.ofNat body.length) ++ body

/-- `Pickler::finish`, from the tags and bodies of the entries. -/
def finish (entries : List (UInt8 × List UInt8)) : List UInt8 :=
  entries.foldl (fun buf (tag, body) => writeEntry buf tag body)
    (writeNatTo (writeNatTo (writeNatTo [] MAJOR) MINOR) (UInt32.ofNat entries.length))

/-- A table of entries, serialised. -/
def writePickle (entries : List Entry) : List UInt8 :=
  finish (entries.map fun e => (e.tag.code, e.body))

end ScalaRs.Pickling
