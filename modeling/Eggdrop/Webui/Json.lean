import Eggdrop.Base.CString

/-!
# Json — the JSON texts of the web interface (webui.c)

The texts are put together piece by piece; `json_escape` appends a string.
-/

namespace Eggdrop.Webui

/-- A digit of `%04x`. -/
def hexLower (n : ℕ) : Char := "0123456789abcdef".toList.getD n '0'

/-- `json_escape` for one character. -/
def jsonChar (c : Char) : CStr :=
  if c = '"' then ['\\', '"']
  else if c = '\\' then ['\\', '\\']
  else if c = '\n' then ['\\', 'n']
  else if c = '\r' then ['\\', 'r']
  else if c = '\t' then ['\\', 't']
  else if c.toNat < 0x20 then
    ['\\', 'u', '0', '0', hexLower (c.toNat / 16), hexLower (c.toNat % 16)]
  else [c]

/-- `json_escape` of a string. -/
def jsonEscape (s : CStr) : CStr := '"' :: (s.flatMap jsonChar ++ ['"'])

end Eggdrop.Webui
