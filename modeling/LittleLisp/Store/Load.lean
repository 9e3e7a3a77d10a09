import LittleLisp.Datum.Basic
import LittleLisp.Store.Chain

namespace LittleLisp.Store

mutual

def load : Datum → Store → CellId × Store
  | .atom name, s => s.addCell (.atom name)
  | .number value, s => s.addCell (.number value)
  | .str text, s => s.addCell (.str text)
  | .bool flag, s => s.addCell (.bool flag)
  | .quoted inner, s =>
    let (c, s) := load inner s
    s.addCell (.quoted c)
  | .list items, s =>
    let (cs, s) := loadItems items s
    s.addList cs
  | .mark _, s => (absentId, s)

def loadItems : List Datum → Store → List CellId × Store
  | [], s => ([], s)
  | d :: ds, s =>
    let (c, s) := load d s
    let (cs, s) := loadItems ds s
    (c :: cs, s)

end

end LittleLisp.Store
