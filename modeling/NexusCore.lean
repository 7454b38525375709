import NexusCore.Capacity
import NexusCore.Completion
import NexusCore.Exceptions
import NexusCore.Handover
import NexusCore.Rotation
import NexusCore.Transparency
import NexusCore.Races
import NexusCore.SendData
import NexusCore.Views
import NexusCore.Words
