import Pincushion.Structs

/-! The static variables that the screens share. -/
namespace Pincushion.Singletons
open SwiftNumber Structs

structure Statics where
  /-- `ContractSingleton.current` -/
  contract : Contract
  /-- `ContractSingleton.originalValues` -/
  originalValues : Contract
  /-- `MeasurementSingleton.current` -/
  measurement : SwiftFloat × SwiftFloat × SwiftFloat
  specialistUID : String
  displayName : String
  brideUID : String
  fullName : String
deriving DecidableEq

/-- The contract a singleton starts with; its list holds one empty uid. -/
def emptyContract (eventDate : Date) : Contract where
  uid := ""
  dressUID := ""
  brideUID := ""
  specialistUID := ""
  eventDate := eventDate
  alterations := [""]

/-- The two contracts are made by separate clock reads. -/
def Statics.initial (currentDate originalDate : Date) : Statics where
  contract := emptyContract currentDate
  originalValues := emptyContract originalDate
  measurement := (.finite 0, .finite 0, .finite 0)
  specialistUID := ""
  displayName := ""
  brideUID := ""
  fullName := ""

def getSpecialist (g : Statics) : String := g.displayName
def getEventDate (g : Statics) : Date := g.contract.eventDate
def getBust (g : Statics) : String := g.measurement.1.description
def getWaist (g : Statics) : String := g.measurement.2.1.description
def getHip (g : Statics) : String := g.measurement.2.2.description

end Pincushion.Singletons
