import Flowline.Store

/-! What lowering asks of a store. Lowering is written against these operations alone, so that it runs on
    any store that has them. -/

namespace Flowline

/-- The operations of a store through which programs are lowered. -/
class LineStore (σ : Type) where
  line? : σ → Address → Option Line
  append : σ → Method → UInt32 → Draft → Address × σ
  addArgs : σ → Address → Method → List Value → Bool × σ
  addArgsToLast : σ → Method → List Value → Bool × σ
  nameLast : σ → List Segment → σ
  outputLast : σ → List String → σ
  linkExit : σ → Address → σ
  copyLine : σ → Address → UInt32 → Option Address → Option Address × σ
  isValue : σ → String → Bool
  isHandle : σ → String → Bool
  openScope : σ → Address → List String → σ
  closeScope : σ → Address → σ
  function? : σ → String → Option Address
  declareFunction : σ → String → Address → Option Address × σ
  importModule : σ → String → String → σ
  importsModule : σ → String → Bool
  services : σ → List String
  execute : σ → UInt32 → Request → Option Address → Except Diagnostic (Address × σ)
  listen : σ → UInt32 → Request → Option Address → Except Diagnostic (Address × σ)

instance : LineStore Store where
  line? := Store.line?
  append := Store.append
  addArgs := Store.addArgs
  addArgsToLast := Store.addArgsToLast
  nameLast := Store.nameLast
  outputLast := Store.outputLast
  linkExit := Store.linkExit
  copyLine := Store.copyLine
  isValue := Store.isValue
  isHandle := Store.isHandle
  openScope := Store.openScope
  closeScope := Store.closeScope
  function? := Store.function?
  declareFunction := Store.declareFunction
  importModule := Store.importModule
  importsModule := Store.importsModule
  services := Store.services
  execute := Store.execute
  listen := Store.listen

end Flowline
