import Mathlib.Data.Nat.Notation

/-! # The entries of a pickle

Integers keep the width of the source; the two floating-point constants are
kept as their bits, which is all that is read and written of them. -/
namespace ScalaRs.Pickling

def MAJOR : UInt32 := 5
def MINOR : UInt32 := 2

/-- The tags of entries, under the names of the format. -/
inductive EntryTag
  | TERMname | TYPEname | NONEsym | TYPEsym | ALIASsym | CLASSsym | MODULEsym | VALsym
  | EXTref | EXTMODCLASSref | NOtpe | NOPREFIXtpe | THIStpe | SINGLEtpe | CONSTANTtpe
  | TYPEREFtpe | TYPEBOUNDStpe | REFINEDtpe | CLASSINFOtpe | METHODtpe | POLYtpe
  | IMPLICITMETHODtpe | LITERAL | LITERALunit | LITERALboolean | LITERALbyte | LITERALshort
  | LITERALchar | LITERALint | LITERALlong | LITERALfloat | LITERALdouble | LITERALstring
  | LITERALnull | LITERALclass | LITERALenum | LITERALsymbol | SYMANNOT | CHILDREN
  | ANNOTATEDtpe | ANNOTINFO | ANNOTARGARRAY | SUPERtpe | DEBRUIJNINDEXtpe | EXISTENTIALtpe
  | TREE | MODIFIERS
  deriving DecidableEq, Repr

namespace EntryTag

def code : EntryTag → UInt8
  | TERMname => 1 | TYPEname => 2 | NONEsym => 3 | TYPEsym => 4 | ALIASsym => 5
  | CLASSsym => 6 | MODULEsym => 7 | VALsym => 8 | EXTref => 9 | EXTMODCLASSref => 10
  | NOtpe => 11 | NOPREFIXtpe => 12 | THIStpe => 13 | SINGLEtpe => 14 | CONSTANTtpe => 15
  | TYPEREFtpe => 16 | TYPEBOUNDStpe => 17 | REFINEDtpe => 18 | CLASSINFOtpe => 19
  | METHODtpe => 20 | POLYtpe => 21 | IMPLICITMETHODtpe => 22 | LITERAL => 23
  | LITERALunit => 24 | LITERALboolean => 25 | LITERALbyte => 26 | LITERALshort => 27
  | LITERALchar => 28 | LITERALint => 29 | LITERALlong => 30 | LITERALfloat => 31
  | LITERALdouble => 32 | LITERALstring => 33 | LITERALnull => 34 | LITERALclass => 35
  | LITERALenum => 36 | LITERALsymbol => 37 | SYMANNOT => 40 | CHILDREN => 41
  | ANNOTATEDtpe => 42 | ANNOTINFO => 43 | ANNOTARGARRAY => 44 | SUPERtpe => 46
  | DEBRUIJNINDEXtpe => 47 | EXISTENTIALtpe => 48 | TREE => 49 | MODIFIERS => 50

def all : List EntryTag :=
  [TERMname, TYPEname, NONEsym, TYPEsym, ALIASsym, CLASSsym, MODULEsym, VALsym, EXTref,
    EXTMODCLASSref, NOtpe, NOPREFIXtpe, THIStpe, SINGLEtpe, CONSTANTtpe, TYPEREFtpe,
    TYPEBOUNDStpe, REFINEDtpe, CLASSINFOtpe, METHODtpe, POLYtpe, IMPLICITMETHODtpe, LITERAL,
    LITERALunit, LITERALboolean, LITERALbyte, LITERALshort, LITERALchar, LITERALint,
    LITERALlong, LITERALfloat, LITERALdouble, LITERALstring, LITERALnull, LITERALclass,
    LITERALenum, LITERALsymbol, SYMANNOT, CHILDREN, ANNOTATEDtpe, ANNOTINFO, ANNOTARGARRAY,
    SUPERtpe, DEBRUIJNINDEXtpe, EXISTENTIALtpe, TREE, MODIFIERS]

/-- The tag a `match` on the byte takes. -/
def ofCode (b : UInt8) : Option EntryTag := all.find? (·.code == b)

@[simp] theorem ofCode_code (t : EntryTag) : ofCode t.code = some t := by cases t <;> decide

theorem code_of_ofCode {b : UInt8} {t : EntryTag} (h : ofCode b = some t) : t.code = b := by
  simpa using List.find?_some h

end EntryTag

def FIRST_SYM_TAG : UInt8 := EntryTag.NONEsym.code
def LAST_SYM_TAG : UInt8 := EntryTag.VALsym.code
def LAST_EXT_SYM_TAG : UInt8 := EntryTag.EXTMODCLASSref.code

/-- The tags of trees, the first byte of a `TREE` entry. -/
inductive TreeTag
  | EMPTYtree | PACKAGEtree | CLASStree | MODULEtree | VALDEFtree | DEFDEFtree | TYPEDEFtree
  | LABELtree | IMPORTtree | DOCDEFtree | TEMPLATEtree | BLOCKtree | CASEtree
  | ALTERNATIVEtree | STARtree | BINDtree | UNAPPLYtree | ARRAYVALUEtree | FUNCTIONtree
  | ASSIGNtree | IFtree | MATCHtree | RETURNtree | TREtree | THROWtree | NEWtree | TYPEDtree
  | TYPEAPPLYtree | APPLYtree | APPLYDYNAMICtree | SUPERtree | THIStree | SELECTtree
  | IDENTtree | LITERALtree | TYPEtree | ANNOTATEDtree | SINGLETONTYPEtree
  | SELECTFROMTYPEtree | COMPOUNDTYPEtree | APPLIEDTYPEtree | TYPEBOUNDStree
  | EXISTENTIALTYPEtree
  deriving DecidableEq, Repr

namespace TreeTag

def code : TreeTag → UInt8
  | EMPTYtree => 1 | PACKAGEtree => 2 | CLASStree => 3 | MODULEtree => 4 | VALDEFtree => 5
  | DEFDEFtree => 6 | TYPEDEFtree => 7 | LABELtree => 8 | IMPORTtree => 9 | DOCDEFtree => 11
  | TEMPLATEtree => 12 | BLOCKtree => 13 | CASEtree => 14 | ALTERNATIVEtree => 16
  | STARtree => 17 | BINDtree => 18 | UNAPPLYtree => 19 | ARRAYVALUEtree => 20
  | FUNCTIONtree => 21 | ASSIGNtree => 22 | IFtree => 23 | MATCHtree => 24 | RETURNtree => 25
  | TREtree => 26 | THROWtree => 27 | NEWtree => 28 | TYPEDtree => 29 | TYPEAPPLYtree => 30
  | APPLYtree => 31 | APPLYDYNAMICtree => 32 | SUPERtree => 33 | THIStree => 34
  | SELECTtree => 35 | IDENTtree => 36 | LITERALtree => 37 | TYPEtree => 38
  | ANNOTATEDtree => 39 | SINGLETONTYPEtree => 40 | SELECTFROMTYPEtree => 41
  | COMPOUNDTYPEtree => 42 | APPLIEDTYPEtree => 43 | TYPEBOUNDStree => 44
  | EXISTENTIALTYPEtree => 45

def all : List TreeTag :=
  [EMPTYtree, PACKAGEtree, CLASStree, MODULEtree, VALDEFtree, DEFDEFtree, TYPEDEFtree,
    LABELtree, IMPORTtree, DOCDEFtree, TEMPLATEtree, BLOCKtree, CASEtree, ALTERNATIVEtree,
    STARtree, BINDtree, UNAPPLYtree, ARRAYVALUEtree, FUNCTIONtree, ASSIGNtree, IFtree,
    MATCHtree, RETURNtree, TREtree, THROWtree, NEWtree, TYPEDtree, TYPEAPPLYtree, APPLYtree,
    APPLYDYNAMICtree, SUPERtree, THIStree, SELECTtree, IDENTtree, LITERALtree, TYPEtree,
    ANNOTATEDtree, SINGLETONTYPEtree, SELECTFROMTYPEtree, COMPOUNDTYPEtree, APPLIEDTYPEtree,
    TYPEBOUNDStree, EXISTENTIALTYPEtree]

def ofCode (b : UInt8) : Option TreeTag := all.find? (·.code == b)

@[simp] theorem ofCode_code (t : TreeTag) : ofCode t.code = some t := by cases t <;> decide

theorem code_of_ofCode {b : UInt8} {t : TreeTag} (h : ofCode b = some t) : t.code = b := by
  simpa using List.find?_some h

end TreeTag

/-- The index of an entry. -/
abbrev Idx := UInt32

/-- What every symbol of the pickle itself starts with. -/
structure SymInfo where
  name : Idx
  owner : Idx
  flags : UInt64
  privateWithin : Option Idx
  info : Idx
  deriving DecidableEq, Repr

inductive Constant
  | Unit
  | Boolean (b : Bool)
  | Byte (n : BitVec 8)
  | Short (n : BitVec 16)
  | Char (c : BitVec 32)
  | Int (n : BitVec 32)
  | Long (n : BitVec 64)
  | Float (bits : BitVec 32)
  | Double (bits : BitVec 64)
  | Str (name : Idx)
  | Null
  | Class (tpe : Idx)
  | Enum (sym : Idx)
  | Symbol (name : Idx)
  deriving DecidableEq, Repr

structure AnnotInfo where
  tpe : Idx
  args : List Idx
  assocs : List (Idx × Idx)
  deriving DecidableEq, Repr

structure ImportSelector where
  fromRef : Idx
  toRef : Idx
  deriving DecidableEq, Repr

inductive Tree
  | Empty
  | PackageDef (sym mods name pid : Idx) (stats : List Idx)
  | ClassDef (sym mods name template : Idx) (tparams : List Idx)
  | ModuleDef (sym mods name template : Idx)
  | ValDef (sym mods name tpt rhs : Idx)
  | DefDef (sym mods name : Idx) (tparams : List Idx) (vparamss : List (List Idx))
      (tpt rhs : Idx)
  | TypeDef (sym mods name rhs : Idx) (tparams : List Idx)
  | LabelDef (sym name rhs : Idx) (params : List Idx)
  | Import (sym expr : Idx) (selectors : List ImportSelector)
  | DocDef (comment definition : Idx)
  | Template (sym : Idx) (parents : List Idx) (self : Idx) (body : List Idx)
  | Block (expr : Idx) (stats : List Idx)
  | CaseDef (pat guard body : Idx)
  | Alternative (trees : List Idx)
  | Star (elem : Idx)
  | Bind (sym name body : Idx)
  | UnApply (function : Idx) (args : List Idx)
  | ArrayValue (elemtpt : Idx) (elems : List Idx)
  | Function (sym body : Idx) (vparams : List Idx)
  | Assign (lhs rhs : Idx)
  | If (cond thenp elsep : Idx)
  | Match (selector : Idx) (cases : List Idx)
  | Return (sym expr : Idx)
  | Try (block finalizer : Idx) (catches : List Idx)
  | Throw (expr : Idx)
  | New (tpt : Idx)
  | Typed (expr tpt : Idx)
  | TypeApply (function : Idx) (args : List Idx)
  | Apply (function : Idx) (args : List Idx)
  | ApplyDynamic (sym function : Idx) (args : List Idx)
  | Super (sym qual mix : Idx)
  | This (sym qual : Idx)
  | Select (sym qualifier selector : Idx)
  | Ident (sym name : Idx)
  | Literal (const : Idx)
  | TypeTree
  | Annotated (annot arg : Idx)
  | SingletonTypeTree (ref : Idx)
  | SelectFromTypeTree (qualifier selector : Idx)
  | CompoundTypeTree (templ : Idx)
  | AppliedTypeTree (tpt : Idx) (args : List Idx)
  | TypeBoundsTree (lo hi : Idx)
  | ExistentialTypeTree (tpt : Idx) (whereClauses : List Idx)
  deriving DecidableEq, Repr

/-- One entry of the table. -/
inductive Entry
  | TermName (s : String)
  | TypeName (s : String)
  | NoneSym
  | TypeSym (info : SymInfo)
  | AliasSym (info : SymInfo)
  | ClassSym (info : SymInfo) (thisType : Option Idx)
  | ModuleSym (info : SymInfo) (aliasRef : Option Idx)
  | ValSym (info : SymInfo) (aliasRef : Option Idx)
  | ExtRef (name : Idx) (owner : Option Idx)
  | ExtModClassRef (name : Idx) (owner : Option Idx)
  | NoTpe
  | NoPrefixTpe
  | ThisTpe (sym : Idx)
  | SingleTpe (pre sym : Idx)
  | SuperTpe (thisTpe superTpe : Idx)
  | ConstantTpe (const : Idx)
  | TypeRefTpe (pre sym : Idx) (args : List Idx)
  | TypeBoundsTpe (lo hi : Idx)
  | RefinedTpe (sym : Idx) (parents : List Idx)
  | ClassInfoTpe (sym : Idx) (parents : List Idx)
  | MethodTpe (result : Idx) (params : List Idx)
  | ImplicitMethodTpe (result : Idx) (params : List Idx)
  | PolyTpe (result : Idx) (tparams : List Idx)
  | ExistentialTpe (result : Idx) (quantified : List Idx)
  | AnnotatedTpe (tpe : Idx) (annots : List Idx)
  | DeBruijnIndexTpe (level index : UInt32)
  | Literal (c : Constant)
  | SymAnnot (sym : Idx) (annot : AnnotInfo)
  | AnnotInfo (annot : AnnotInfo)
  | AnnotArgArray (args : List Idx)
  | Children (sym : Idx) (children : List Idx)
  | Tree (tpe : Option Idx) (tree : Tree)
  | Modifiers (flags : UInt64) (privateWithin : Idx)
  deriving DecidableEq, Repr

/-- A pickle that has been read. The full names are worked out on first use. -/
structure Pickle where
  major : UInt32
  minor : UInt32
  entries : List Entry
  entryTags : List UInt8
  fullNames : List (Option (Option String))
  deriving DecidableEq, Repr

end ScalaRs.Pickling
