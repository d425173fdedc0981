import Eggdrop.Base.CString

/-!
# Strbuf — the string builder of libop (strbuf.c)

A builder is to be set up with `op_strbuf_init`.  One that was only filled with zeros has no text
behind its pointer: `op_strbuf_append` gets memory for it, as for any text that does not fit, while
`op_strbuf_clear` and `op_strbuf_appendf` write through the pointer first.
-/

namespace Eggdrop

/-- `op_strbuf_t`: the text behind `ptr`; `none` where `ptr` is NULL. -/
structure Strbuf where
  text : Option CStr
deriving DecidableEq, Repr

namespace Strbuf

/-- `op_strbuf_init`. -/
def init : Strbuf := ⟨some []⟩

/-- What `= {}` leaves. -/
def zeroed : Strbuf := ⟨none⟩

/-- `op_strbuf_clear`; `none` where it writes to NULL. -/
def clear (sb : Strbuf) : Option Strbuf := sb.text.map fun _ => init

/-- `op_strbuf_append`. -/
def append (sb : Strbuf) (s : CStr) : Strbuf :=
  if s = [] then sb else ⟨some (sb.text.getD [] ++ s)⟩

/-- `op_strbuf_appendf` with the text that its format gives; `none` where it prints to NULL. -/
def appendf (sb : Strbuf) (s : CStr) : Option Strbuf := sb.text.map fun text => ⟨some (text ++ s)⟩

@[simp] theorem clear_zeroed : zeroed.clear = none := rfl

@[simp] theorem appendf_zeroed (s : CStr) : zeroed.appendf s = none := rfl

end Strbuf

end Eggdrop
