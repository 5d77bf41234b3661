import GoYcsb.Lib.Outcome
import GoYcsb.Lib.Strings

/-!
This module contains the plain output style of `pkg/util/output.go`.
-/

namespace Util

def renderArgs (headers cells : List Bytes) : Outcome (List Bytes) :=
  match headers, cells with
  | [], _ => .ret []
  | _ :: _, [] => .panic "index out of range"
  | header :: headers, cell :: cells => do
    let args ← renderArgs headers cells
    .ret ((header ++ Bytes.ofAscii ": " ++ cell) :: args)

def renderRow (format : Bytes → Bytes → Bytes) (headers value : List Bytes) : Outcome Bytes :=
  match headers with
  | [] => .panic "makeslice: len out of range"
  | _ :: headers => do
    let args ← renderArgs headers value.tail
    match value with
    | [] => .panic "index out of range"
    | first :: _ => .ret (format first (Strings.join (Bytes.ofAscii ", ") args))

def renderRows (format : Bytes → Bytes → Bytes) (headers : List Bytes) (values : List (List Bytes)) (buf : Bytes)
    : Outcome Bytes :=
  match values with
  | [] => .ret buf
  | value :: values => do
    let row ← renderRow format headers value
    renderRows format headers values (buf ++ row)

def renderString (format : Bytes → Bytes → Bytes) (headers : List Bytes) (values : List (List Bytes))
    : Outcome Bytes :=
  if values.length = 0 then
    .ret []
  else
    renderRows format headers values []

end Util
