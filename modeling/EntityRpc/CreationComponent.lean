import EntityRpc.FieldStore

namespace EntityRpc.CreationComponent

def id : ComponentId := 9985

def rpcs : RepeatedField := ⟨1⟩

def clearCommand : CommandIndex := 1

end EntityRpc.CreationComponent
